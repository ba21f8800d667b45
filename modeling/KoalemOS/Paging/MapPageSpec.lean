import KoalemOS.Paging.WindowStores
import KoalemOS.Mmap.FreePages

/-!
# What `map_page` and `unmap_page` do

Each part of `mapPage` makes sure of one more table on the path of the page
(`TableStep`) and changes the link to it as `LinkEdit` says; at the end `writePte` stores
the leaf entry, and the three entries it has made writable meanwhile are restored exactly
(`writePteWith_spec`). The frames the call takes from `phys_mmap` are the first
`missingTables` ones (`takeFrames`). All of this holds with write protection too, as long
as the entries above a present one are writable when it gets the flags (`AboveWritable`).
-/

namespace KoalemOS.Paging

open KoalemOS.Library KoalemOS.Mmap

/-! ## The addresses the parts of `map_page` use -/

/-- A page the editor works on: canonical, aligned, outside the window slot. -/
structure UserPage (v : Nat) : Prop where
  canonical : canonical v = true
  aligned : v % 4096 = 0
  slot : index v 39 ≠ 511

theorem UserPage.lt {v : Nat} (h : UserPage v) : v < 2 ^ 64 := by
  have := h.canonical
  simp only [Paging.canonical, Bool.or_eq_true, Bool.and_eq_true, decide_eq_true_eq] at this
  omega

theorem indices_pdptSlot (v : Nat) (k : Fin 512) :
    index (wrap ((v &&& 0xFFFFFF8000000000) + 0x40000000 * k)) 39 = index v 39 ∧
      index (wrap ((v &&& 0xFFFFFF8000000000) + 0x40000000 * k)) 30 = k := by
  have hk := k.isLt
  have hmask : v &&& 0xFFFFFF8000000000 = v / 2 ^ 39 % 2 ^ 25 * 2 ^ 39 := land_shifted_mask v 39 25
  rw [hmask, wrap_of_lt (by omega)]
  constructor <;> apply Fin.ext <;> simp only [index] <;> omega

theorem indices_pdSlot (v : Nat) (k : Fin 512) :
    index (wrap ((v &&& 0xFFFFFFFFC0000000) + 0x200000 * k)) 39 = index v 39 ∧
      index (wrap ((v &&& 0xFFFFFFFFC0000000) + 0x200000 * k)) 30 = index v 30 ∧
      index (wrap ((v &&& 0xFFFFFFFFC0000000) + 0x200000 * k)) 21 = k := by
  have hk := k.isLt
  have hmask : v &&& 0xFFFFFFFFC0000000 = v / 2 ^ 30 % 2 ^ 34 * 2 ^ 30 := land_shifted_mask v 30 34
  rw [hmask, wrap_of_lt (by omega)]
  refine ⟨?_, ?_, ?_⟩ <;> apply Fin.ext <;> simp only [index] <;> omega

theorem indices_ptSlot (v : Nat) (k : Fin 512) :
    index (wrap ((v &&& 0xFFFFFFFFFFE00000) + 0x1000 * k)) 39 = index v 39 ∧
      index (wrap ((v &&& 0xFFFFFFFFFFE00000) + 0x1000 * k)) 30 = index v 30 ∧
      index (wrap ((v &&& 0xFFFFFFFFFFE00000) + 0x1000 * k)) 21 = index v 21 ∧
      index (wrap ((v &&& 0xFFFFFFFFFFE00000) + 0x1000 * k)) 12 = k := by
  have hk := k.isLt
  have hmask : v &&& 0xFFFFFFFFFFE00000 = v / 2 ^ 21 % 2 ^ 43 * 2 ^ 21 := land_shifted_mask v 21 43
  rw [hmask, wrap_of_lt (by omega)]
  refine ⟨?_, ?_, ?_, ?_⟩ <;> apply Fin.ext <;> simp only [index] <;> omega

/-- The loop over a new PDPT reaches its entries. -/
theorem shows_pdptSlot (v : Nat) (k : Fin 512) :
    Shows (pdpteAddrOf (wrap ((v &&& 0xFFFFFF8000000000) + 0x40000000 * k))) [index v 39] k := by
  obtain ⟨h39, h30⟩ := indices_pdptSlot v k
  have h := shows_pdpte (wrap ((v &&& 0xFFFFFF8000000000) + 0x40000000 * k))
  rwa [h39, h30] at h

/-- The loop over a new PD reaches its entries. -/
theorem shows_pdSlot (v : Nat) (k : Fin 512) :
    Shows (pdeAddrOf (wrap ((v &&& 0xFFFFFFFFC0000000) + 0x200000 * k))) [index v 39, index v 30] k := by
  obtain ⟨h39, h30, h21⟩ := indices_pdSlot v k
  have h := shows_pde (wrap ((v &&& 0xFFFFFFFFC0000000) + 0x200000 * k))
  rwa [h39, h30, h21] at h

/-- The loop over a new PT reaches its entries. -/
theorem shows_ptSlot (v : Nat) (k : Fin 512) :
    Shows (pteAddrOf (wrap ((v &&& 0xFFFFFFFFFFE00000) + 0x1000 * k)))
      [index v 39, index v 30, index v 21] k := by
  obtain ⟨h39, h30, h21, h12⟩ := indices_ptSlot v k
  have h := shows_pte (wrap ((v &&& 0xFFFFFFFFFFE00000) + 0x1000 * k))
  rwa [h39, h30, h21, h12] at h

/-! ## One more table on the path -/

/-- The frames `alloc_phys_pages(1)` returns when it is called `k` times, and the map left. -/
def takeFrames : Nat → MemoryMap → List Nat × MemoryMap
  | 0, m => ([], m)
  | k + 1, m =>
    let rest := takeFrames k (mmapGetPages m 1).2
    ((mmapGetPages m 1).1 :: rest.1, rest.2)

/-- The number of tables missing at the end of a path whose parents are present. -/
def missing (m : Mem) (cr3 : Nat) (p : List (Fin 512)) : Nat :=
  if tableAt m cr3 p = none then 1 else 0

/-- A frame that can become a table. -/
structure GoodFrame (m : Mem) (cr3 a : Nat) : Prop extends FrameAddr a where
  nonzero : a ≠ 0
  notTable : ¬IsTable m cr3 (a / 4096)

/-- From `s` to `s'` the editor has made sure of the table at path `p`. -/
structure TableStep (s s' : Kernel) (p : List (Fin 512)) : Prop where
  same : s' = { s with mem := s'.mem, physMmap := s'.physMmap, allocLog := s'.allocLog }
  taken : s'.physMmap = (takeFrames (missing s.mem s.cr3 p) s.physMmap).2
  grown : Grown s.cr3 s.mem s'.mem
    ((takeFrames (missing s.mem s.cr3 p) s.physMmap).1.map (· / 4096))
  table : ∃ n, tableAt s'.mem s.cr3 p = some n
  fresh_at : ∀ f ∈ (takeFrames (missing s.mem s.cr3 p) s.physMmap).1.map (· / 4096),
    tableAt s'.mem s.cr3 p = some f

/-- Different paths lead to different tables. -/
theorem PageTables.table_ne {m : Mem} {cr3 a b : Nat} (h : PageTables m cr3) {p q : List (Fin 512)}
    (hp : tablePaths.mem p) (hq : tablePaths.mem q) (ha : tableAt m cr3 p = some a)
    (hb : tableAt m cr3 q = some b) (hpq : p ≠ q) : a ≠ b := by
  rintro rfl
  exact hpq (h.tree p q a hp hq ha hb)

/-- From `s` to `s'` the upper entries at the positions `P` have got the flags, each being
the old one or a link to a new table; the others are the old ones, or 0 in a new table.
Nothing is said about the positions `X`. -/
structure LinkEdit (P X : List (Fin 512) → Fin 512 → Prop) (s s' : Kernel) (flags : Nat) : Prop where
  on : ∀ q i, P q i → ∃ b, entries s'.mem s.cr3 q i = some (b ||| flags) ∧ present b = true ∧
    (entries s.mem s.cr3 q i = some b ∨
      tableAt s.mem s.cr3 (q ++ [i]) = none ∧ ∃ a, FrameAddr a ∧ b = a ||| pagingFlagPresent)
  off : ∀ q i, tablePaths.mem q → ¬P q i → ¬X q i →
    entries s'.mem s.cr3 q i = entries s.mem s.cr3 q i ∨
      (entries s.mem s.cr3 q i = none ∧ entries s'.mem s.cr3 q i = some 0) ∧ ∃ r j, P r j ∧ q = r ++ [j]

section LinkEdits

variable {P Q X Y : List (Fin 512) → Fin 512 → Prop} {s s₁ s₂ : Kernel} {flags : Nat}

/-- Two edits at different positions. -/
theorem LinkEdit.trans (h : LinkEdit P X s s₁ flags) (h' : LinkEdit Q Y s₁ s₂ flags)
    (hcr3 : s₁.cr3 = s.cr3) (hP : ∀ q i, P q i → ¬Q q i ∧ ¬Y q i) (hQ : ∀ q i, Q q i → ¬X q i)
    (hmem : ∀ q i, P q i ∨ Q q i → tablePaths.mem (q ++ [i]))
    (hkeep : ∀ q n, tablePaths.mem q → tableAt s.mem s.cr3 q = some n → tableAt s₁.mem s.cr3 q = some n) :
    LinkEdit (fun q i => P q i ∨ Q q i) (fun q i => X q i ∨ Y q i) s s₂ flags := by
  obtain ⟨hon, hoff⟩ := h
  obtain ⟨hon', hoff'⟩ := h'
  rw [hcr3] at hon' hoff'
  refine ⟨fun q i hpos => ?_, fun q i hq hpos hX => ?_⟩
  · have hq := tablePaths.init_mem q i (hmem q i hpos)
    by_cases hp : P q i
    · obtain ⟨b, hb, hpres, hold⟩ := hon q i hp
      refine ⟨b, ?_, hpres, hold⟩
      rcases hoff' q i hq (hP q i hp).1 (hP q i hp).2 with heq | ⟨⟨hnone, -⟩, -⟩
      · rw [heq, hb]
      · rw [hb] at hnone
        cases hnone
    · have hq' := hpos.resolve_left hp
      obtain ⟨b, hb, hpres, hold⟩ := hon' q i hq'
      refine ⟨b, hb, hpres, ?_⟩
      rcases hold with hold | ⟨hnone, hnew⟩
      · rcases hoff q i hq hp (hQ q i hq') with heq | ⟨⟨-, hzero⟩, -⟩
        · exact .inl (heq ▸ hold)
        · -- an entry of a new table is not present
          rw [hold] at hzero
          rw [Option.some.inj hzero] at hpres
          cases hpres
      · refine .inr ⟨?_, hnew⟩
        by_contra hc
        obtain ⟨n, hn⟩ := Option.ne_none_iff_exists'.mp hc
        rw [hkeep _ n (hmem q i hpos) hn] at hnone
        cases hnone
  · rw [not_or] at hpos hX
    rcases hoff q i hq hpos.1 hX.1 with heq | ⟨⟨hnone, hzero⟩, r, j, hr, hqr⟩
    · rw [← heq]
      refine (hoff' q i hq hpos.2 hX.2).imp id ?_
      rintro ⟨h0, r, j, hr, hqr⟩
      exact ⟨h0, r, j, .inr hr, hqr⟩
    · rcases hoff' q i hq hpos.2 hX.2 with heq' | ⟨⟨hnone', -⟩, -⟩
      · exact .inr ⟨⟨hnone, heq'.trans hzero⟩, r, j, .inl hr, hqr⟩
      · rw [hzero] at hnone'
        cases hnone'

/-- An edited entry above a table that was there is an old one. -/
theorem LinkEdit.old (h : LinkEdit P X s s₁ flags) {q : List (Fin 512)} {i j : Fin 512} {e : Nat}
    (hP : P q i) (he : entries s.mem s.cr3 (q ++ [i]) j = some e) :
    ∃ b, entries s.mem s.cr3 q i = some b ∧ present b = true ∧
      entries s₁.mem s.cr3 q i = some (b ||| flags) := by
  obtain ⟨b, hb, hpres, hb' | ⟨hnone, -⟩⟩ := h.on q i hP
  · exact ⟨b, hb', hpres, hb⟩
  · have hmap : (tableAt s.mem s.cr3 (q ++ [i])).map (fun n => tables s.mem n j) = some e := he
    rw [hnone] at hmap
    cases hmap

/-- A present entry that is not edited is an old one. -/
theorem LinkEdit.kept (h : LinkEdit P X s s₁ flags) {q : List (Fin 512)} {i : Fin 512} {e : Nat}
    (hq : tablePaths.mem q) (hP : ¬P q i) (hX : ¬X q i) (he : entries s₁.mem s.cr3 q i = some e)
    (hpres : present e = true) : entries s.mem s.cr3 q i = some e := by
  rcases h.off q i hq hP hX with heq | ⟨⟨-, hzero⟩, -⟩
  · rw [← heq, he]
  · rw [he] at hzero
    rw [Option.some.inj hzero] at hpres
    cases hpres

theorem LinkEdit.congr (h : LinkEdit P X s s₁ flags) (hP : ∀ q i, Q q i ↔ P q i)
    (hX : ∀ q i, Y q i ↔ X q i) : LinkEdit Q Y s s₁ flags := by
  refine ⟨fun q i hq => h.on q i ((hP q i).mp hq), fun q i hq hQ hY => ?_⟩
  refine (h.off q i hq (fun hp => hQ ((hP q i).mpr hp)) fun hx => hY ((hX q i).mpr hx)).imp id ?_
  rintro ⟨h0, r, j, hr, hqr⟩
  exact ⟨h0, r, j, (hP r j).mpr hr, hqr⟩

end LinkEdits

/-- A part of `map_page`: the table at path `p ++ [i]` is there, and entry `i` of the table at
`p` leads to it with the flags. -/
structure PartStep (s s' : Kernel) (p : List (Fin 512)) (i : Fin 512) (flags : Nat) : Prop
    extends TableStep s s' (p ++ [i]) where
  links : LinkEdit (fun q j => q = p ∧ j = i) (fun _ _ => False) s s' flags

section Parts

variable {s : Kernel} {p : List (Fin 512)} {i : Fin 512} {n f flags : Nat}

/-- The table is there: its link has got the flags. -/
theorem PartStep.of_present (h : PageTables s.mem s.cr3) (hp : tablePaths.mem (p ++ [i]))
    (hn : tableAt s.mem s.cr3 p = some n) (hl : link (tables s.mem n i) ≠ none)
    (hflags : AttributeBits flags) :
    PartStep s (s.setEntry n i (tables s.mem n i ||| flags)) p i flags := by
  have htab : tables (s.setEntry n i (tables s.mem n i ||| flags)).mem =
      (tables s.mem).set n i (tables s.mem n i ||| flags) :=
    tables_setEntry s n i (Nat.or_lt_two_pow (tables_lt _ _ _) hflags.lt)
  obtain ⟨k, hk⟩ := Option.ne_none_iff_exists'.mp hl
  have hpres := (link_eq_some.mp hk).1
  have hgrown := Grown.of_link_edit h hp hn hl (hflags.link_or hpres) htab
  have htable : tableAt s.mem s.cr3 (p ++ [i]) = some k := by
    rw [tableAt_concat, hn, Option.bind_some, hk]
  have hmissing : missing s.mem s.cr3 (p ++ [i]) = 0 := by simp [missing, htable]
  have hent : ∀ q j, tablePaths.mem q →
      entries (s.setEntry n i (tables s.mem n i ||| flags)).mem s.cr3 q j =
        if q = p ∧ j = i then some (tables s.mem n i ||| flags) else entries s.mem s.cr3 q j := by
    intro q j hq
    rw [entries, htab]
    exact Tables.entryAt_set_link h.tree (tablePaths.init_mem p i hp) hn (hflags.link_or hpres) hq
  refine ⟨⟨rfl, ?_, ?_, ⟨k, hgrown.keep _ k hp htable⟩, ?_⟩, ⟨?_, fun q j hq hne _ => .inl ?_⟩⟩
  · rw [hmissing]
    rfl
  · rw [hmissing]
    exact hgrown
  · rw [hmissing]
    simp [takeFrames]
  · rintro _ _ ⟨rfl, rfl⟩
    refine ⟨tables s.mem n _, ?_, hpres, .inl (entries_of_tableAt hn _)⟩
    rw [hent _ _ (tablePaths.init_mem _ _ hp), if_pos ⟨rfl, rfl⟩]
  · rw [hent q j hq, if_neg hne]

/-- The table was missing: the first frame of `phys_mmap` has become it. -/
theorem PartStep.of_fresh {s' : Kernel} (h : PageTables s.mem s.cr3)
    (hp : tablePaths.mem (p ++ [i])) (hn : tableAt s.mem s.cr3 p = some n)
    (habs : present (tables s.mem n i) = false)
    (hgood : GoodFrame s.mem s.cr3 (mmapGetPages s.physMmap 1).1) (hflags : AttributeBits flags)
    (hsame : s' = { s with mem := s'.mem, physMmap := s'.physMmap, allocLog := s'.allocLog })
    (hmap : s'.physMmap = (mmapGetPages s.physMmap 1).2)
    (hm : tables s'.mem = ((tables s.mem).clear ((mmapGetPages s.physMmap 1).1 / 4096) 0).set n i
      ((mmapGetPages s.physMmap 1).1 ||| pagingFlagPresent ||| flags)) :
    PartStep s s' p i flags := by
  obtain ⟨he, -⟩ := link_frame_attributes hgood.toFrameAddr hflags
  obtain ⟨hgrown, htable⟩ := Grown.of_fresh h hp hn habs he hgood.notTable hm
  obtain ⟨-, -, hent⟩ := entries_of_fresh h.tree hp hn habs he hgood.notTable hm
  have hnone : tableAt s.mem s.cr3 (p ++ [i]) = none := by
    rw [tableAt_concat, hn, Option.bind_some, link_of_not_present habs]
  have hmissing : missing s.mem s.cr3 (p ++ [i]) = 1 := by simp [missing, hnone]
  refine ⟨⟨hsame, ?_, ?_, ⟨_, htable⟩, ?_⟩, ⟨?_, fun q j hq hne _ => ?_⟩⟩
  · rw [hmissing]
    exact hmap
  · rw [hmissing]
    exact hgrown
  · rw [hmissing]
    intro f hf
    rw [List.mem_singleton.mp hf]
    exact htable
  · rintro _ _ ⟨rfl, rfl⟩
    refine ⟨(mmapGetPages s.physMmap 1).1 ||| pagingFlagPresent, ?_, ?_, .inr ⟨hnone, _,
      hgood.toFrameAddr, rfl⟩⟩
    · rw [hent _ _ (tablePaths.init_mem _ _ hp), if_pos ⟨rfl, rfl⟩]
    · rw [present_or]
      exact Bool.or_true _
  · rw [hent q j hq, if_neg hne]
    split_ifs with hq'
    · refine .inr ⟨⟨?_, rfl⟩, p, i, ⟨rfl, rfl⟩, hq'⟩
      rw [hq']
      show (tableAt s.mem s.cr3 (p ++ [i])).map _ = none
      rw [hnone, Option.map_none]
    · exact .inl rfl

/-- The entry on the way to a table links to it. -/
theorem link_of_table {m : Mem} {cr3 k : Nat} (hn : tableAt m cr3 p = some n)
    (hk : tableAt m cr3 (p ++ [i]) = some k) : link (tables m n i) = some k := by
  rw [tableAt_concat, hn, Option.bind_some] at hk
  exact hk

/-- Without large pages, a present upper entry is a link. -/
theorem NoLargePage.link_ne_none {v : Nat} (hl : NoLargePage s.mem s.cr3 v) (hu : UpperOf v p i)
    (hn : tableAt s.mem s.cr3 p = some n) (hpres : present (tables s.mem n i) = true) :
    link (tables s.mem n i) ≠ none := by
  have hlarge := hl p i hu _ (entries_of_tableAt hn i) hpres
  rw [link_eq_some.mpr ⟨hpres, hlarge, rfl⟩]
  simp

end Parts

section MapPage

variable {store : Nat → Nat → KernelM Unit} {wp : Prop} {s : Kernel} {v flags addr n k : Nat}
  {p : List (Fin 512)} {i : Fin 512}

/-- An entry made writable for the moment opens the table behind it. -/
theorem Open.raise {cr3 : Nat} (ho : Open wp s.mem cr3 p n) (hc : s.cr3 = cr3)
    (hst : StoresWord store wp) (h : PageTables s.mem cr3) (ha : Shows addr p i)
    (hp : tablePaths.mem (p ++ [i])) (hk : tableAt s.mem cr3 (p ++ [i]) = some k) :
    ∃ s₁, (orWordWith store addr pagingFlagReadWrite).Returns s () s₁ ∧ s₁ = { s with mem := s₁.mem } ∧
      tables s₁.mem = (tables s.mem).set n i (tables s.mem n i ||| pagingFlagReadWrite) ∧
      Grown cr3 s.mem s₁.mem [] ∧ Open wp s₁.mem cr3 p n ∧ Open wp s₁.mem cr3 (p ++ [i]) k := by
  have hp' := tablePaths.init_mem p i hp
  have hlink := link_of_table ho.path hk
  have hl : link (tables s.mem n i) ≠ none := by simp [hlink]
  have htab := tables_setEntry s n i (e := tables s.mem n i ||| pagingFlagReadWrite)
    (or_lt (tables_lt _ _ _) (by decide))
  have hself : (tables s.mem).set n i (tables s.mem n i ||| pagingFlagReadWrite) n i =
      tables s.mem n i ||| pagingFlagReadWrite := Tables.set_apply_self
  have hret := ho.orEntry hc hst ha pagingFlagReadWrite
  have hsame : s.setEntry n i (tables s.mem n i ||| pagingFlagReadWrite) =
      { s with mem := (s.setEntry n i (tables s.mem n i ||| pagingFlagReadWrite)).mem } := rfl
  generalize s.setEntry n i (tables s.mem n i ||| pagingFlagReadWrite) = s₁ at htab hret hsame
  have hgrown : Grown cr3 s.mem s₁.mem [] := Grown.of_link_edit h hp ho.path hl (link_or flagsOk_readWrite) htab
  have ho₁ : Open wp s₁.mem cr3 p n := by
    refine ho.congr ?_ fun q j b hq hb => ?_
    · rw [htab, Tables.set_apply_of_ne (ne_window h hp ho.path)]
    · -- tables on the way to the entry are not its table
      rw [htab, Tables.set_apply_of_ne (.inl ?_)]
      rintro rfl
      have hlen := hq.length_le
      rw [List.length_append, List.length_singleton] at hlen
      have hmem : tablePaths.mem q := tablePaths.mem_of_prefix ((List.prefix_append q [j]).trans hq) hp'
      rw [h.tree q p b hmem hp' hb ho.path] at hlen
      omega
  refine ⟨s₁, hret, hsame, htab, hgrown, ho₁, ho₁.step ?_ fun _ => ?_⟩
  · rw [htab, hself, link_or flagsOk_readWrite, hlink]
  · rw [htab, hself, readWrite_or]
    exact Bool.or_true _

theorem tableAt_of_absent {m : Mem} {cr3 : Nat} (hn : tableAt m cr3 p = some n)
    (habs : present (tables m n i) = false) : tableAt m cr3 (p ++ [i]) = none := by
  rw [tableAt_concat, hn, Option.bind_some, link_of_not_present habs]

/-- A link that is being set up is writable. -/
theorem readWrite_link (a : Nat) : readWrite (a ||| pagingFlagReadWrite) = true := by
  rw [readWrite_or]
  exact Bool.or_true _

/-- The PDPT part. -/
theorem mapPagePdptWith_spec (hst : StoresWord store wp) (h : PageTables s.mem s.cr3)
    (hw : wp → readWrite (tables s.mem (frameOf s.cr3) 511) = true) (hv : UserPage v)
    (hl : NoLargePage s.mem s.cr3 v) (hflags : AttributeBits flags)
    (hgood : tableAt s.mem s.cr3 [index v 39] = none →
      GoodFrame s.mem s.cr3 (mmapGetPages s.physMmap 1).1) :
    ∃ s', (mapPagePdptWith store v flags).Returns s () s' ∧ PartStep s s' [] (index v 39) flags := by
  have hp : tablePaths.mem ([] ++ [index v 39]) := (UpperOf.pml4.mem hv.slot).2
  have ho : Open wp s.mem s.cr3 [] (frameOf s.cr3) := Open.root h hw
  have hread := ho.readEntry rfl (shows_pml4e v)
  by_cases hpres : present (tables s.mem (frameOf s.cr3) (index v 39)) = true
  · -- the table is there: its link gets the flags
    refine ⟨_, hread.bind ?_, PartStep.of_present h hp ho.path (hl.link_ne_none .pml4 ho.path hpres) hflags⟩
    rw [if_pos hpres]
    exact ho.orEntry rfl hst (shows_pml4e v) flags
  · have habs : present (tables s.mem (frameOf s.cr3) (index v 39)) = false := by simpa using hpres
    have hgood := hgood (tableAt_of_absent (p := []) ho.path habs)
    obtain ⟨-, hlt⟩ := link_frame_attributes hgood.toFrameAddr hflags
    obtain ⟨hlinkRw, hltRw⟩ := link_frame_flags hgood.toFrameAddr flagsOk_readWrite
    obtain ⟨m', hret, hm'⟩ := linkTableWith_spec (s := s.allocated 1) hst
      (fun k => pdpteAddrOf (wrap ((v &&& 0xFFFFFF8000000000) + 0x40000000 * k))) rfl h hp ho
      hgood.notTable hlinkRw (readWrite_link _) hltRw hlt (shows_pml4e v) (shows_pdptSlot v)
    have hstep : PartStep s { s.allocated 1 with mem := m' } [] (index v 39) flags :=
      PartStep.of_fresh h hp ho.path habs hgood hflags rfl rfl hm'
    refine ⟨_, hread.bind ?_, hstep⟩
    rw [if_neg hpres]
    refine (returns_allocPhysPages s 1).bind ?_
    rw [if_pos hgood.nonzero]
    exact hret

/-- The PD part, below a PDPT. -/
theorem mapPagePdWith_spec (hst : StoresWord store wp) (h : PageTables s.mem s.cr3)
    (hw : wp → readWrite (tables s.mem (frameOf s.cr3) 511) = true) (hv : UserPage v)
    (hl : NoLargePage s.mem s.cr3 v) (hflags : AttributeBits flags) {n₃ : Nat}
    (hn : tableAt s.mem s.cr3 [index v 39] = some n₃)
    (hgood : tableAt s.mem s.cr3 [index v 39, index v 30] = none →
      GoodFrame s.mem s.cr3 (mmapGetPages s.physMmap 1).1)
    (habove : wp → present (tables s.mem n₃ (index v 30)) = true →
      readWrite (tables s.mem (frameOf s.cr3) (index v 39)) = true) :
    ∃ s', (mapPagePdWith store v flags).Returns s () s' ∧
      PartStep s s' [index v 39] (index v 30) flags := by
  have hp : tablePaths.mem ([index v 39] ++ [index v 30]) := (UpperOf.pdpt.mem hv.slot).2
  have hp₄ : tablePaths.mem ([] ++ [index v 39]) := (UpperOf.pml4.mem hv.slot).2
  have ho : Open wp s.mem s.cr3 [] (frameOf s.cr3) := Open.root h hw
  have hread : (readWord (pdpteAddrOf v)).Returns s (tables s.mem n₃ (index v 30)) s :=
    readEntry ((shows_pdpte v).translate h.selfMap hn)
  by_cases hpres : present (tables s.mem n₃ (index v 30)) = true
  · have ho₃ := ho.step (link_of_table ho.path hn) fun hwp => habove hwp hpres
    refine ⟨_, hread.bind ?_, PartStep.of_present h hp hn (hl.link_ne_none .pdpt hn hpres) hflags⟩
    rw [if_pos hpres]
    exact ho₃.orEntry rfl hst (shows_pdpte v) flags
  · have habs : present (tables s.mem n₃ (index v 30)) = false := by simpa using hpres
    have hgood := hgood (tableAt_of_absent (p := [index v 39]) hn habs)
    obtain ⟨-, hlt⟩ := link_frame_attributes hgood.toFrameAddr hflags
    obtain ⟨hlinkRw, hltRw⟩ := link_frame_flags hgood.toFrameAddr flagsOk_readWrite
    have hne : n₃ ≠ frameOf s.cr3 := h.table_ne hp₄ tablePaths.nil_mem hn ho.path (by simp)
    have hroota : frameOf s.cr3 ≠ (mmapGetPages s.physMmap 1).1 / 4096 := fun hc =>
      hgood.notTable (hc ▸ isTable_root _ _ _)
    -- the PML4 entry is writable while the PD is linked
    obtain ⟨s₁, hr₁, hs₁, ht₁, hg₁, ho₁, ho₁'⟩ :=
      Open.raise (s := s.allocated 1) ho rfl hst h (shows_pml4e v) hp₄ hn
    have hc₁ : s₁.cr3 = s.cr3 := by rw [hs₁]; rfl
    have hnot₁ : ¬IsTable s₁.mem s.cr3 ((mmapGetPages s.physMmap 1).1 / 4096) := fun hc =>
      (hg₁.reach _ hc).elim hgood.notTable (by simp)
    obtain ⟨m', hret, hm'⟩ := linkTableWith_spec hst
      (fun k => pdeAddrOf (wrap ((v &&& 0xFFFFFFFFC0000000) + 0x200000 * k))) hc₁ hg₁.pageTables hp
      ho₁' hnot₁ hlinkRw (readWrite_link _) hltRw hlt (shows_pdpte v) (shows_pdSlot v)
    have ho₂ : Open wp m' s.cr3 [] (frameOf s.cr3) := by
      refine ho₁.congr ?_ fun q j b hq _ => by simp at hq
      rw [hm', Tables.set_apply_of_ne (.inl hne.symm), Tables.clear_apply_of_ne hroota]
    have hlast := ho₂.storeEntry (s := { s₁ with mem := m' }) hc₁ hst (shows_pml4e v)
      (tables s.mem (frameOf s.cr3) (index v 39))
    generalize hs₃ : Kernel.setEntry { s₁ with mem := m' } (frameOf s.cr3) (index v 39)
      (tables s.mem (frameOf s.cr3) (index v 39)) = s₃ at hlast
    have hm₃ : tables s₃.mem = ((tables s.mem).clear ((mmapGetPages s.physMmap 1).1 / 4096) 0).set n₃
        (index v 30) ((mmapGetPages s.physMmap 1).1 ||| pagingFlagPresent ||| flags) := by
      rw [← hs₃, tables_setEntry _ _ _ (tables_lt _ _ _)]
      show (tables m').set _ _ _ = _
      rw [hm', ht₁]
      exact Tables.clear_set_restore hne hroota
    have hstep : PartStep s s₃ [index v 39] (index v 30) flags := by
      refine PartStep.of_fresh h hp hn habs hgood hflags ?_ ?_ hm₃
      · rw [← hs₃, hs₁]
        rfl
      · rw [← hs₃, hs₁]
        rfl
    refine ⟨_, hread.bind ?_, hstep⟩
    rw [if_neg hpres]
    refine (returns_allocPhysPages s 1).bind ?_
    rw [if_pos hgood.nonzero]
    exact (Open.readEntry (s := s.allocated 1) ho rfl (shows_pml4e v)).bind (hr₁.bind (hret.bind hlast))

/-- The PT part, below a PD. -/
theorem mapPagePtWith_spec (hst : StoresWord store wp) (h : PageTables s.mem s.cr3)
    (hw : wp → readWrite (tables s.mem (frameOf s.cr3) 511) = true) (hv : UserPage v)
    (hl : NoLargePage s.mem s.cr3 v) (hflags : AttributeBits flags) {n₃ n₂ : Nat}
    (hn₃ : tableAt s.mem s.cr3 [index v 39] = some n₃)
    (hn : tableAt s.mem s.cr3 [index v 39, index v 30] = some n₂)
    (hgood : ptAt s.mem s.cr3 v = none → GoodFrame s.mem s.cr3 (mmapGetPages s.physMmap 1).1)
    (habove : wp → present (tables s.mem n₂ (index v 21)) = true →
      readWrite (tables s.mem (frameOf s.cr3) (index v 39)) = true ∧
        readWrite (tables s.mem n₃ (index v 30)) = true) :
    ∃ s', (mapPagePtWith store v flags).Returns s () s' ∧
      PartStep s s' [index v 39, index v 30] (index v 21) flags := by
  have hp : tablePaths.mem ([index v 39, index v 30] ++ [index v 21]) := (UpperOf.pd.mem hv.slot).2
  have hp₃ : tablePaths.mem ([index v 39] ++ [index v 30]) := (UpperOf.pdpt.mem hv.slot).2
  have hp₄ : tablePaths.mem ([] ++ [index v 39]) := (UpperOf.pml4.mem hv.slot).2
  have ho : Open wp s.mem s.cr3 [] (frameOf s.cr3) := Open.root h hw
  have hread : (readWord (pdeAddrOf v)).Returns s (tables s.mem n₂ (index v 21)) s :=
    readEntry ((shows_pde v).translate h.selfMap hn)
  by_cases hpres : present (tables s.mem n₂ (index v 21)) = true
  · have ho₃ := ho.step (link_of_table ho.path hn₃) fun hwp => (habove hwp hpres).1
    have ho₂ := ho₃.step (link_of_table hn₃ hn) fun hwp => (habove hwp hpres).2
    refine ⟨_, hread.bind ?_, PartStep.of_present h hp hn (hl.link_ne_none .pd hn hpres) hflags⟩
    rw [if_pos hpres]
    exact ho₂.orEntry rfl hst (shows_pde v) flags
  · have habs : present (tables s.mem n₂ (index v 21)) = false := by simpa using hpres
    have hgood := hgood (tableAt_of_absent (p := [index v 39, index v 30]) hn habs)
    obtain ⟨hlink, hlt⟩ := link_frame_attributes hgood.toFrameAddr hflags
    obtain ⟨hlinkRw, hltRw⟩ := link_frame_flags hgood.toFrameAddr flagsOk_readWrite
    have hlinkRwFlags : link ((mmapGetPages s.physMmap 1).1 ||| pagingFlagPresent |||
        pagingFlagReadWrite ||| flags) = some ((mmapGetPages s.physMmap 1).1 / 4096) := by
      rw [hflags.link_or (link_eq_some.mp hlinkRw).1, hlinkRw]
    have hrwFlags : readWrite ((mmapGetPages s.physMmap 1).1 ||| pagingFlagPresent |||
        pagingFlagReadWrite ||| flags) = true := by
      rw [readWrite_or, readWrite_link]
      rfl
    have hne₃ : n₃ ≠ frameOf s.cr3 := h.table_ne hp₄ tablePaths.nil_mem hn₃ ho.path (by simp)
    have hne₂ : n₂ ≠ frameOf s.cr3 := h.table_ne hp₃ tablePaths.nil_mem hn ho.path (by simp)
    have hne₂₃ : n₂ ≠ n₃ := h.table_ne hp₃ hp₄ hn hn₃ (by simp)
    have hroota : frameOf s.cr3 ≠ (mmapGetPages s.physMmap 1).1 / 4096 := fun hc =>
      hgood.notTable (hc ▸ isTable_root _ _ _)
    have hn₃a : n₃ ≠ (mmapGetPages s.physMmap 1).1 / 4096 := fun hc =>
      hgood.notTable (hc ▸ ⟨_, hp₄, hn₃⟩)
    -- the PML4 and PDPT entries are writable while the PT is linked
    obtain ⟨s₁, hr₁, hs₁, ht₁, hg₁, ho₁, ho₁'⟩ :=
      Open.raise (s := s.allocated 1) ho rfl hst h (shows_pml4e v) hp₄ hn₃
    have hc₁ : s₁.cr3 = s.cr3 := by rw [hs₁]; rfl
    obtain ⟨s₂, hr₂, hs₂, ht₂, hg₂, ho₂, ho₂'⟩ :=
      ho₁'.raise hc₁ hst hg₁.pageTables (shows_pdpte v) hp₃ (hg₁.keep _ _ hp₃ hn)
    have hc₂ : s₂.cr3 = s.cr3 := by rw [hs₂]; exact hc₁
    have hnot₂ : ¬IsTable s₂.mem s.cr3 ((mmapGetPages s.physMmap 1).1 / 4096) := fun hc =>
      ((hg₁.trans hg₂).reach _ hc).elim hgood.notTable (by simp)
    obtain ⟨m', hret, hm'⟩ := linkTableWith_spec hst
      (fun k => pteAddrOf (wrap ((v &&& 0xFFFFFFFFFFE00000) + 0x1000 * k))) hc₂ hg₂.pageTables hp
      ho₂' hnot₂ hlinkRwFlags hrwFlags (Nat.or_lt_two_pow hltRw hflags.lt) hlt (shows_pde v)
      (shows_ptSlot v)
    have hrows : ∀ b, b ≠ n₂ → b ≠ (mmapGetPages s.physMmap 1).1 / 4096 →
        tables m' b = tables s₂.mem b := by
      intro b hb hbf
      funext j
      rw [hm', Tables.set_apply_of_ne (.inl hb), Tables.clear_apply_of_ne hbf]
    have hopen : ∀ p n, p <+: [index v 39, index v 30] → Open wp s₂.mem s.cr3 p n →
        Open wp m' s.cr3 p n := fun p n hpre hopen =>
      hopen.of_edit hg₂.pageTables hp₃ ho₂'.path hpre (congrFun (hrows _ hne₂.symm hroota) 511)
        fun b hb hbn => hrows b hbn fun hc => hnot₂ (hc ▸ hb)
    -- restore the PDPT entry, then the PML4 entry
    have hlast₃ := (hopen _ _ ⟨[index v 30], rfl⟩ ho₂).storeEntry (s := { s₂ with mem := m' }) hc₂ hst
      (shows_pdpte v) (tables s₁.mem n₃ (index v 30))
    have hread₃ := ho₁'.readEntry hc₁ (shows_pdpte v)
    generalize hs₄ : Kernel.setEntry { s₂ with mem := m' } n₃ (index v 30) (tables s₁.mem n₃ (index v 30)) = s₄
      at hlast₃
    have hc₄ : s₄.cr3 = s.cr3 := by rw [← hs₄]; exact hc₂
    have hm₄ : tables s₄.mem = ((tables s₁.mem).clear ((mmapGetPages s.physMmap 1).1 / 4096) 0).set n₂
        (index v 21) ((mmapGetPages s.physMmap 1).1 ||| pagingFlagPresent ||| flags) := by
      rw [← hs₄, tables_setEntry _ _ _ (tables_lt _ _ _)]
      show (tables m').set _ _ _ = _
      rw [hm', ht₂]
      exact Tables.clear_set_restore hne₂₃ hn₃a
    have ho₄ : Open wp s₄.mem s.cr3 [] (frameOf s.cr3) := by
      refine ho₁.congr ?_ fun q j b hq _ => by simp at hq
      rw [hm₄, Tables.set_apply_of_ne (.inl hne₂.symm), Tables.clear_apply_of_ne hroota]
    have hlast₄ := ho₄.storeEntry hc₄ hst (shows_pml4e v) (tables s.mem (frameOf s.cr3) (index v 39))
    generalize hs₅ : s₄.setEntry (frameOf s.cr3) (index v 39) (tables s.mem (frameOf s.cr3) (index v 39)) = s₅
      at hlast₄
    have hm₅ : tables s₅.mem = ((tables s.mem).clear ((mmapGetPages s.physMmap 1).1 / 4096) 0).set n₂
        (index v 21) ((mmapGetPages s.physMmap 1).1 ||| pagingFlagPresent ||| flags) := by
      rw [← hs₅, tables_setEntry _ _ _ (tables_lt _ _ _), hm₄, ht₁]
      exact Tables.clear_set_restore hne₂ hroota
    have hstep : PartStep s s₅ [index v 39, index v 30] (index v 21) flags := by
      refine PartStep.of_fresh h hp hn habs hgood hflags ?_ ?_ hm₅
      · rw [← hs₅, ← hs₄, hs₂, hs₁]
        rfl
      · rw [← hs₅, ← hs₄, hs₂, hs₁]
        rfl
    refine ⟨_, hread.bind ?_, hstep⟩
    rw [if_neg hpres]
    refine (returns_allocPhysPages s 1).bind ?_
    rw [if_pos hgood.nonzero]
    refine (Open.readEntry (s := s.allocated 1) ho rfl (shows_pml4e v)).bind (hr₁.bind ?_)
    exact hread₃.bind (hr₂.bind (hret.bind (hlast₃.bind hlast₄)))

/-! ## The leaf entry -/

/-- `writePte` changes the leaf entry and nothing else. -/
theorem writePteWith_spec (hst : StoresWord store wp) (h : PageTables s.mem s.cr3)
    (hw : wp → readWrite (tables s.mem (frameOf s.cr3) 511) = true) (hv : UserPage v) {n₃ n₂ n₁ e : Nat}
    (hn₃ : tableAt s.mem s.cr3 [index v 39] = some n₃)
    (hn₂ : tableAt s.mem s.cr3 [index v 39, index v 30] = some n₂)
    (hn₁ : ptAt s.mem s.cr3 v = some n₁) (he : e < 2 ^ 64) :
    ∃ m', (writePteWith store v e).Returns s () { s with mem := m' } ∧
      tables m' = (tables s.mem).set n₁ (index v 12) e := by
  have hp₂ : tablePaths.mem ([index v 39, index v 30] ++ [index v 21]) := (UpperOf.pd.mem hv.slot).2
  have hp₃ : tablePaths.mem ([index v 39] ++ [index v 30]) := (UpperOf.pdpt.mem hv.slot).2
  have hp₄ : tablePaths.mem ([] ++ [index v 39]) := (UpperOf.pml4.mem hv.slot).2
  have ho : Open wp s.mem s.cr3 [] (frameOf s.cr3) := Open.root h hw
  have hne₃ : n₃ ≠ frameOf s.cr3 := h.table_ne hp₄ tablePaths.nil_mem hn₃ ho.path (by simp)
  have hne₂ : n₂ ≠ frameOf s.cr3 := h.table_ne hp₃ tablePaths.nil_mem hn₂ ho.path (by simp)
  have hne₁ : n₁ ≠ frameOf s.cr3 := h.table_ne hp₂ tablePaths.nil_mem hn₁ ho.path (by simp)
  have hne₂₃ : n₂ ≠ n₃ := h.table_ne hp₃ hp₄ hn₂ hn₃ (by simp)
  have hne₁₃ : n₁ ≠ n₃ := h.table_ne hp₂ hp₄ hn₁ hn₃ (by simp)
  have hne₁₂ : n₁ ≠ n₂ := h.table_ne hp₂ hp₃ hn₁ hn₂ (by simp)
  -- the three upper entries become writable
  obtain ⟨s₁, hr₁, hs₁, ht₁, hg₁, ho₁, ho₁'⟩ := ho.raise rfl hst h (shows_pml4e v) hp₄ hn₃
  have hc₁ : s₁.cr3 = s.cr3 := by rw [hs₁]
  obtain ⟨s₂, hr₂, hs₂, ht₂, hg₂, ho₂, ho₂'⟩ :=
    ho₁'.raise hc₁ hst hg₁.pageTables (shows_pdpte v) hp₃ (hg₁.keep _ _ hp₃ hn₂)
  have hc₂ : s₂.cr3 = s.cr3 := by rw [hs₂]; exact hc₁
  obtain ⟨s₃, hr₃, hs₃, ht₃, hg₃, ho₃, ho₃'⟩ :=
    ho₂'.raise hc₂ hst hg₂.pageTables (shows_pde v) hp₂ (hg₂.keep _ _ hp₂ (hg₁.keep _ _ hp₂ hn₁))
  have hc₃ : s₃.cr3 = s.cr3 := by rw [hs₃]; exact hc₂
  -- an edit of the leaf entry leaves the tables above it open
  have hedit : ∀ {m m' : Mem} {p n}, PageTables m s.cr3 → Open wp m s.cr3 p n →
      tableAt m s.cr3 ([index v 39, index v 30] ++ [index v 21]) = some n₁ →
      p <+: [index v 39, index v 30] ++ [index v 21] → tables m' = (tables m).set n₁ (index v 12) e →
      Open wp m' s.cr3 p n := by
    intro m m' p n hpt hopen hpath hpre hm'
    refine hopen.of_edit hpt hp₂ hpath hpre ?_ fun b _ hb => ?_
    · rw [hm', Tables.set_apply_of_ne (.inl hne₁.symm)]
    · funext j
      rw [hm', Tables.set_apply_of_ne (.inl hb)]
  -- the store, and the three restores in reverse order
  have hstore := ho₃'.storeEntry hc₃ hst (shows_pte v) e
  have ht₄ := tables_setEntry s₃ n₁ (index v 12) he
  have ho₄ := hedit hg₃.pageTables ho₃ ho₃'.path (List.prefix_append _ _) ht₄
  have hstore₂ := ho₄.storeEntry (s := s₃.setEntry n₁ (index v 12) e) hc₃ hst (shows_pde v)
    (tables s₂.mem n₂ (index v 21))
  generalize hs₅ : (s₃.setEntry n₁ (index v 12) e).setEntry n₂ (index v 21) (tables s₂.mem n₂ (index v 21)) = s₅
    at hstore₂
  have hc₅ : s₅.cr3 = s.cr3 := by rw [← hs₅]; exact hc₃
  have ht₅ : tables s₅.mem = (tables s₂.mem).set n₁ (index v 12) e := by
    rw [← hs₅, tables_setEntry _ _ _ (tables_lt _ _ _), ht₄, ht₃]
    exact Tables.set_restore hne₁₂
  have ho₅ := hedit hg₂.pageTables ho₂ (hg₂.keep _ _ hp₂ (hg₁.keep _ _ hp₂ hn₁)) ⟨[index v 30, index v 21], rfl⟩ ht₅
  have hstore₃ := ho₅.storeEntry hc₅ hst (shows_pdpte v) (tables s₁.mem n₃ (index v 30))
  generalize hs₆ : s₅.setEntry n₃ (index v 30) (tables s₁.mem n₃ (index v 30)) = s₆ at hstore₃
  have hc₆ : s₆.cr3 = s.cr3 := by rw [← hs₆]; exact hc₅
  have ht₆ : tables s₆.mem = (tables s₁.mem).set n₁ (index v 12) e := by
    rw [← hs₆, tables_setEntry _ _ _ (tables_lt _ _ _), ht₅, ht₂]
    exact Tables.set_restore hne₁₃
  have ho₆ := hedit hg₁.pageTables ho₁ (hg₁.keep _ _ hp₂ hn₁) List.nil_prefix ht₆
  have hstore₄ := ho₆.storeEntry hc₆ hst (shows_pml4e v) (tables s.mem (frameOf s.cr3) (index v 39))
  generalize hs₇ : s₆.setEntry (frameOf s.cr3) (index v 39) (tables s.mem (frameOf s.cr3) (index v 39)) = s₇
    at hstore₄
  have ht₇ : tables s₇.mem = (tables s.mem).set n₁ (index v 12) e := by
    rw [← hs₇, tables_setEntry _ _ _ (tables_lt _ _ _), ht₆, ht₁]
    exact Tables.set_restore hne₁
  have hsame : s₇ = { s with mem := s₇.mem } := by
    rw [← hs₇, ← hs₆, ← hs₅, hs₃, hs₂, hs₁]
    rfl
  refine ⟨s₇.mem, ?_, ht₇⟩
  rw [← hsame]
  refine (ho.readEntry rfl (shows_pml4e v)).bind (hr₁.bind ?_)
  refine (ho₁'.readEntry hc₁ (shows_pdpte v)).bind (hr₂.bind ?_)
  refine (ho₂'.readEntry hc₂ (shows_pde v)).bind (hr₃.bind ?_)
  exact hstore.bind (hstore₂.bind (hstore₃.bind hstore₄))

end MapPage

/-! ## The frames a call takes -/

/-- The number of tables missing on the path of an address. -/
def missingTables (m : Mem) (cr3 v : Nat) : Nat :=
  missing m cr3 [index v 39] + missing m cr3 [index v 39, index v 30] +
    missing m cr3 [index v 39, index v 30, index v 21]

theorem takeFrames_add (j k : Nat) (m : MemoryMap) :
    takeFrames (j + k) m = ((takeFrames j m).1 ++ (takeFrames k (takeFrames j m).2).1,
      (takeFrames k (takeFrames j m).2).2) := by
  induction j generalizing m with
  | zero => simp [takeFrames]
  | succ j ih =>
    rw [show j + 1 + k = j + k + 1 by omega]
    simp only [takeFrames, ih, List.cons_append]

/-- The next `k` frames of `phys_mmap` can become tables, each only once. -/
structure FreshFrames (s : Kernel) (k : Nat) : Prop where
  good : ∀ a ∈ (takeFrames k s.physMmap).1, GoodFrame s.mem s.cr3 a
  nodup : (takeFrames k s.physMmap).1.Nodup

section Frames

variable {s s' : Kernel} {p q : List (Fin 512)} {k : Nat}

theorem FreshFrames.of_missing (h : FreshFrames s (missing s.mem s.cr3 p + k))
    (hnone : tableAt s.mem s.cr3 p = none) :
    GoodFrame s.mem s.cr3 (mmapGetPages s.physMmap 1).1 := by
  refine h.good _ ?_
  rw [missing, if_pos hnone, Nat.add_comm]
  exact List.mem_cons_self

/-- After a part of `map_page` the remaining frames are still fresh. -/
theorem FreshFrames.after (h : FreshFrames s (missing s.mem s.cr3 p + k)) (hs : TableStep s s' p) :
    FreshFrames s' k := by
  obtain ⟨hgood, hnodup⟩ := h
  rw [takeFrames_add] at hgood hnodup
  have hcr3 : s'.cr3 = s.cr3 := by rw [hs.same]
  rw [← hs.taken] at hgood hnodup
  obtain ⟨-, hnd, hdisj⟩ := List.nodup_append.mp hnodup
  refine ⟨fun a ha => ?_, hnd⟩
  have hga := hgood a (List.mem_append_right _ ha)
  refine ⟨hga.toFrameAddr, hga.nonzero, fun ht => ?_⟩
  rw [hcr3] at ht
  rcases hs.grown.reach _ ht with ht | ht
  · exact hga.notTable ht
  · -- two frame addresses with the same number are equal
    obtain ⟨b, hb, hab⟩ := List.mem_map.mp ht
    have hgb := hgood b (List.mem_append_left _ hb)
    have h1 := hga.aligned
    have h2 := hgb.aligned
    exact hdisj b hb a ha (by omega)

/-- A part of `map_page` adds no other table. -/
theorem TableStep.missing_eq (hs : TableStep s s' p) (hq : tablePaths.mem q)
    (hp : tablePaths.mem p) (hpq : p ≠ q) :
    missing s'.mem s'.cr3 q = missing s.mem s.cr3 q := by
  have hcr3 : s'.cr3 = s.cr3 := by rw [hs.same]
  rw [hcr3]
  unfold missing
  cases hn : tableAt s.mem s.cr3 q with
  | some n => rw [hs.grown.keep q n hq hn]
  | none =>
    have hnone : tableAt s'.mem s.cr3 q = none := by
      by_contra hc
      obtain ⟨n, hn'⟩ := Option.ne_none_iff_exists'.mp hc
      rcases hs.grown.reach n ⟨q, hq, hn'⟩ with ⟨r, hr, hrn⟩ | hf
      · have hqr := hs.grown.pageTables.tree q r n hq hr hn' (hs.grown.keep r n hr hrn)
        rw [hqr, hrn] at hn
        simp at hn
      · exact hpq (hs.grown.pageTables.tree p q n hp hq (hs.fresh_at n hf) hn')
    rw [hnone]

end Frames

/-! ## `map_page` and `unmap_page` -/

/-- From `s` to `s'` the leaf entry of page `v` has become `pte`; the frames `taken` have
become tables; nothing else that a walk outside the window slot sees has changed, and
no byte outside the tables. -/
structure Edited (s s' : Kernel) (v pte : Nat) (taken : List Nat) : Prop where
  same : s' = { s with mem := s'.mem, physMmap := s'.physMmap, allocLog := s'.allocLog }
  pageTables : PageTables s'.mem s'.cr3
  ptAt : ∃ n, ptAt s'.mem s'.cr3 v = some n ∧ tables s'.mem n (index v 12) = pte
  others : ∀ w, index w 39 ≠ 511 → w / 4096 ≠ v / 4096 →
    walk s'.mem s'.cr3 w = walk s.mem s.cr3 w
  noLarge : ∀ w, index w 39 ≠ 511 → NoLargePage s.mem s.cr3 w → NoLargePage s'.mem s'.cr3 w
  keep : ∀ p n, tablePaths.mem p → tableAt s.mem s.cr3 p = some n → tableAt s'.mem s'.cr3 p = some n
  reach : ∀ n, IsTable s'.mem s'.cr3 n → IsTable s.mem s.cr3 n ∨ n ∈ taken.map (· / 4096)
  fresh : ∀ n ∈ taken.map (· / 4096), IsTable s'.mem s'.cr3 n
  rows : ∀ n, ¬IsTable s.mem s.cr3 n → n ∉ taken.map (· / 4096) →
    tables s'.mem n = tables s.mem n
  window : tables s'.mem (frameOf s'.cr3) 511 = tables s.mem (frameOf s.cr3) 511

theorem Edited.cr3 {s s' : Kernel} {v pte : Nat} {taken : List Nat} (h : Edited s s' v pte taken) :
    s'.cr3 = s.cr3 := by rw [h.same]

/-- The walk of the edited page ends at the new entry. -/
theorem Edited.walk_self {s s' : Kernel} {v pte : Nat} {taken : List Nat}
    (h : Edited s s' v pte taken) (hv : UserPage v) {w : Nat} (hw : w / 4096 = v / 4096) :
    walk s'.mem s'.cr3 w = if present pte then some (pte, 12) else none := by
  obtain ⟨n, hn, hpte⟩ := h.ptAt
  have hc : canonical w = true := by rw [canonical_of_same_page hw, hv.canonical]
  have hidx : ∀ k, 12 ≤ k → index w k = index v k := fun k hk => index_of_same_page hw hk
  have hnw : Paging.ptAt s'.mem s'.cr3 w = some n := by
    rw [Paging.ptAt, hidx 39 (by decide), hidx 30 (by decide), hidx 21 (by decide)]
    exact hn
  rw [walk_of_ptAt hc hnw, hidx 12 le_rfl, hpte]

/-- Bytes outside the tables are untouched. -/
theorem Edited.byte {s s' : Kernel} {v pte : Nat} {taken : List Nat} (h : Edited s s' v pte taken)
    {x : Nat} (hx : ¬IsTable s.mem s.cr3 (x / 4096)) (hf : x / 4096 ∉ taken.map (· / 4096)) :
    s'.mem x = s.mem x :=
  byte_eq_of_row_eq (h.rows _ hx hf) rfl

section Spec

variable {store : Nat → Nat → KernelM Unit} {wp : Prop} {s : Kernel} {v p flags : Nat}

/-- The position of the leaf entry of a page. -/
def LeafOf (v : Nat) (q : List (Fin 512)) (i : Fin 512) : Prop :=
  q = [index v 39, index v 30, index v 21] ∧ i = index v 12

/-- `writePte` on a page whose tables are present. -/
theorem writePteWith_edited (flags : Nat) (hst : StoresWord store wp) (h : PageTables s.mem s.cr3)
    (hw : wp → readWrite (tables s.mem (frameOf s.cr3) 511) = true) (hv : UserPage v) {n₃ n₂ n₁ e : Nat}
    (hn₃ : tableAt s.mem s.cr3 [index v 39] = some n₃)
    (hn₂ : tableAt s.mem s.cr3 [index v 39, index v 30] = some n₂)
    (hn₁ : ptAt s.mem s.cr3 v = some n₁) (he : e < 2 ^ 64) :
    ∃ s', (writePteWith store v e).Returns s () s' ∧ Edited s s' v e [] ∧ s'.physMmap = s.physMmap ∧
      LinkEdit (fun _ _ => False) (LeafOf v) s s' flags := by
  have hp₁ : tablePaths.mem [index v 39, index v 30, index v 21] := (UpperOf.pd.mem hv.slot).2
  obtain ⟨m', hret, hm'⟩ := writePteWith_spec hst h hw hv hn₃ hn₂ hn₁ he
  obtain ⟨hpt, htab, hwalk, hlarge, hwindow⟩ := walk_set_leaf h hv.slot hn₁ hm'
  refine ⟨_, hret, ⟨rfl, hpt, ⟨n₁, (htab _ hp₁).trans hn₁, ?_⟩, fun w hw hne => ?_, hlarge,
    fun q n hq hn => (htab q hq).trans hn, fun n hn => ?_, by simp, fun n hn _ => ?_, hwindow⟩, rfl,
    fun _ _ hc => hc.elim, fun q i hq _ hX => .inl ?_⟩
  · show tables m' n₁ (index v 12) = e
    rw [hm', Tables.set_apply_self]
  · exact hwalk w hw hne hv.canonical
  · obtain ⟨q, hq, hn⟩ := hn
    exact .inl ⟨q, hq, (htab q hq).symm.trans hn⟩
  · funext j
    show tables m' n j = _
    rw [hm', Tables.set_apply_of_ne]
    refine .inl ?_
    rintro rfl
    exact hn ⟨_, hp₁, hn₁⟩
  · have hleaf : ¬tablePaths.mem ([index v 39, index v 30, index v 21] ++ [index v 12]) := by
      simp [slotPaths]
    show entries m' s.cr3 q i = _
    rw [entries, hm', Tables.entryAt_set_leaf h.tree hp₁ hn₁ hleaf hq]
    exact if_neg hX

/-- A part of `map_page` before an edit. -/
theorem Edited.after_step {s₁ s₂ : Kernel} {q : List (Fin 512)} {pte : Nat} {taken : List Nat}
    (hs : TableStep s s₁ q) (he : Edited s₁ s₂ v pte taken) :
    Edited s s₂ v pte ((takeFrames (missing s.mem s.cr3 q) s.physMmap).1 ++ taken) := by
  have hcr3 : s₁.cr3 = s.cr3 := by rw [hs.same]
  have hg := hs.grown
  rw [← hcr3] at hg
  obtain ⟨hsame, hpt, hptAt, hothers, hlarge, hkeep, hreach, hfresh, hrows, hwindow⟩ := he
  refine ⟨?_, hpt, hptAt, fun w hw hne => ?_, fun w hw hl => ?_, fun r n hr hn => ?_,
    fun n hn => ?_, fun n hn => ?_, fun n hn hnf => ?_, ?_⟩
  · rw [hsame, hs.same]
  · rw [hothers w hw hne, hg.walk w hw, hcr3]
  · rw [← hcr3] at hl
    exact hlarge w hw (hg.noLarge w hw hl)
  · rw [← hcr3] at hn
    exact hkeep r n hr (hg.keep r n hr hn)
  · rw [List.map_append, ← hcr3, List.mem_append]
    rcases hreach n hn with hn | hn
    · exact (hg.reach n hn).imp id .inl
    · exact .inr (.inr hn)
  · rw [List.map_append, ← hcr3, List.mem_append] at hn
    rcases hn with hn | hn
    · obtain ⟨r, hr, hrn⟩ := hg.isTable n hn
      exact ⟨r, hr, hkeep r n hr hrn⟩
    · exact hfresh n hn
  · rw [List.map_append, ← hcr3, List.mem_append, not_or] at hnf
    rw [← hcr3] at hn
    rw [hrows n (fun ht => (hg.reach n ht).elim hn hnf.1) hnf.2, hg.rows n hn hnf.1]
  · rw [hwindow, hg.window, hcr3]

/-- What a part of `map_page` leaves for the next one. -/
theorem TableStep.next {s₁ : Kernel} {q : List (Fin 512)} (hs : TableStep s s₁ q)
    (hv : UserPage v) (hl : NoLargePage s.mem s.cr3 v) :
    PageTables s₁.mem s₁.cr3 ∧ NoLargePage s₁.mem s₁.cr3 v ∧
      (∀ r n, tablePaths.mem r → tableAt s.mem s.cr3 r = some n →
        tableAt s₁.mem s₁.cr3 r = some n) ∧ ∃ n, tableAt s₁.mem s₁.cr3 q = some n := by
  have hcr3 : s₁.cr3 = s.cr3 := by rw [hs.same]
  rw [hcr3]
  exact ⟨hs.grown.pageTables, hs.grown.noLarge v hv.slot hl, hs.grown.keep, hs.table⟩

/-- The entry above a present upper entry of the page is writable. -/
structure AboveWritable (m : Mem) (cr3 v : Nat) : Prop where
  pdpt : ∀ e u, entries m cr3 [index v 39] (index v 30) = some e → present e = true →
    entries m cr3 [] (index v 39) = some u → readWrite u = true
  pd : ∀ e u, entries m cr3 [index v 39, index v 30] (index v 21) = some e → present e = true →
    entries m cr3 [index v 39] (index v 30) = some u → readWrite u = true

theorem upperOf_iff {q : List (Fin 512)} {i : Fin 512} :
    UpperOf v q i ↔ ((q = [] ∧ i = index v 39) ∨ q = [index v 39] ∧ i = index v 30) ∨
      q = [index v 39, index v 30] ∧ i = index v 21 := by
  constructor
  · rintro (_ | _ | _) <;> simp
  · rintro ((⟨rfl, rfl⟩ | ⟨rfl, rfl⟩) | ⟨rfl, rfl⟩)
    · exact .pml4
    · exact .pdpt
    · exact .pd

/-- The window stays writable. -/
theorem TableStep.window_writable {s' : Kernel} {q : List (Fin 512)} (hs : TableStep s s' q)
    (hw : wp → readWrite (tables s.mem (frameOf s.cr3) 511) = true) :
    wp → readWrite (tables s'.mem (frameOf s'.cr3) 511) = true := by
  have hc : s'.cr3 = s.cr3 := by rw [hs.same]
  rw [hc, hs.grown.window]
  exact hw

/-- The first two parts of `map_page`. -/
theorem PartStep.links₂ {s₁ s₂ : Kernel} (hv : UserPage v) (hs₁ : PartStep s s₁ [] (index v 39) flags)
    (hs₂ : PartStep s₁ s₂ [index v 39] (index v 30) flags) :
    LinkEdit (fun q i => q = [] ∧ i = index v 39 ∨ q = [index v 39] ∧ i = index v 30)
      (fun _ _ => False) s s₂ flags := by
  have hp₃ : tablePaths.mem [index v 39, index v 30] := (UpperOf.pdpt.mem hv.slot).2
  have hp₄ : tablePaths.mem [index v 39] := (UpperOf.pml4.mem hv.slot).2
  have hc₁ : s₁.cr3 = s.cr3 := by rw [hs₁.same]
  refine (hs₁.links.trans hs₂.links hc₁ (by rintro q i ⟨rfl, -⟩; simp) (fun _ _ _ => not_false) ?_
    hs₁.grown.keep).congr (fun _ _ => Iff.rfl) (by simp)
  rintro q i (⟨rfl, rfl⟩ | ⟨rfl, rfl⟩) <;> assumption

/-- A present PDPT entry is below a writable PML4 entry when it gets the flags. -/
theorem PartStep.above_pd {s₁ : Kernel} {n₃ : Nat} (hv : UserPage v)
    (hs₁ : PartStep s s₁ [] (index v 39) flags)
    (habove : readWrite flags = true ∨ AboveWritable s.mem s.cr3 v)
    (hn₃ : tableAt s₁.mem s₁.cr3 [index v 39] = some n₃)
    (hpres : present (tables s₁.mem n₃ (index v 30)) = true) :
    readWrite (tables s₁.mem (frameOf s₁.cr3) (index v 39)) = true := by
  have hp₄ : tablePaths.mem [index v 39] := (UpperOf.pml4.mem hv.slot).2
  have hc₁ : s₁.cr3 = s.cr3 := by rw [hs₁.same]
  have he : entries s₁.mem s.cr3 [index v 39] (index v 30) = some _ := entries_of_tableAt (hc₁ ▸ hn₃) _
  have hold := hs₁.links.kept hp₄ (by simp) not_false he hpres
  obtain ⟨b, hb, -, hb'⟩ := hs₁.links.old (q := []) ⟨rfl, rfl⟩ hold
  have hentry : tables s₁.mem (frameOf s.cr3) (index v 39) = b ||| flags := Option.some.inj hb'
  rw [hc₁, hentry, readWrite_or, Bool.or_eq_true]
  exact habove.symm.imp (fun ha => ha.pdpt _ b hold hpres hb) id

/-- A present PD entry is below writable entries when it gets the flags. -/
theorem PartStep.above_pt {s₁ s₂ : Kernel} {n₃ n₂ : Nat} (hv : UserPage v)
    (hs₁ : PartStep s s₁ [] (index v 39) flags) (hs₂ : PartStep s₁ s₂ [index v 39] (index v 30) flags)
    (habove : readWrite flags = true ∨ AboveWritable s.mem s.cr3 v)
    (hn₃ : tableAt s₂.mem s₂.cr3 [index v 39] = some n₃)
    (hn₂ : tableAt s₂.mem s₂.cr3 [index v 39, index v 30] = some n₂)
    (hpres : present (tables s₂.mem n₂ (index v 21)) = true) :
    readWrite (tables s₂.mem (frameOf s₂.cr3) (index v 39)) = true ∧
      readWrite (tables s₂.mem n₃ (index v 30)) = true := by
  have hp₃ : tablePaths.mem [index v 39, index v 30] := (UpperOf.pdpt.mem hv.slot).2
  have hc₂ : s₂.cr3 = s.cr3 := by rw [hs₂.same, hs₁.same]
  have hlinks := hs₁.links₂ hv hs₂
  have he : entries s₂.mem s.cr3 [index v 39, index v 30] (index v 21) = some _ :=
    entries_of_tableAt (hc₂ ▸ hn₂) _
  have hold := hlinks.kept hp₃ (by simp) not_false he hpres
  obtain ⟨b, hb, hbpres, hb'⟩ := hlinks.old (q := [index v 39]) (.inr ⟨rfl, rfl⟩) hold
  obtain ⟨b₄, hb₄, -, hb₄'⟩ := hlinks.old (q := []) (.inl ⟨rfl, rfl⟩) hb
  have hentry₄ : tables s₂.mem (frameOf s.cr3) (index v 39) = b₄ ||| flags := Option.some.inj hb₄'
  have hentry₃ : tables s₂.mem n₃ (index v 30) = b ||| flags :=
    Option.some.inj ((entries_of_tableAt (hc₂ ▸ hn₃) _).symm.trans hb')
  rw [hc₂, hentry₄, hentry₃, readWrite_or, readWrite_or, Bool.or_eq_true, Bool.or_eq_true]
  rcases habove with hf | ha
  · exact ⟨.inr hf, .inr hf⟩
  · exact ⟨.inl (ha.pdpt b b₄ hb hbpres hb₄), .inl (ha.pd _ b hold hpres hb)⟩

/-- **`map_page`.** With fresh frames for the missing tables the call returns; the page
is mapped to `p`, the entries above have got the flags, and everything else is as it was. -/
theorem mapPageWith_spec (hst : StoresWord store wp) (h : PageTables s.mem s.cr3)
    (hw : wp → readWrite (tables s.mem (frameOf s.cr3) 511) = true) (hv : UserPage v)
    (hl : NoLargePage s.mem s.cr3 v) (hp : p < 2 ^ 64) (hflags : AttributeBits flags)
    (habove : wp → readWrite flags = true ∨ AboveWritable s.mem s.cr3 v)
    (hfresh : FreshFrames s (missingTables s.mem s.cr3 v)) :
    ∃ s', (mapPageWith store v p flags).Returns s () s' ∧
      Edited s s' v (p ||| pagingFlagPresent ||| flags)
        (takeFrames (missingTables s.mem s.cr3 v) s.physMmap).1 ∧
      s'.physMmap = (takeFrames (missingTables s.mem s.cr3 v) s.physMmap).2 ∧
      LinkEdit (UpperOf v) (LeafOf v) s s' flags := by
  have hp₂ : tablePaths.mem [index v 39, index v 30, index v 21] := (UpperOf.pd.mem hv.slot).2
  have hp₃ : tablePaths.mem [index v 39, index v 30] := (UpperOf.pdpt.mem hv.slot).2
  have hp₄ : tablePaths.mem [index v 39] := (UpperOf.pml4.mem hv.slot).2
  unfold missingTables at hfresh ⊢
  rw [Nat.add_assoc] at hfresh ⊢
  -- the three tables, one after the other
  obtain ⟨s₁, hr₁, hs₁⟩ := mapPagePdptWith_spec hst h hw hv hl hflags hfresh.of_missing
  have ht₁ : TableStep s s₁ [index v 39] := hs₁.toTableStep
  have hc₁ : s₁.cr3 = s.cr3 := by rw [ht₁.same]
  obtain ⟨hpt₁, hl₁, hk₁, n₃, hn₃⟩ := ht₁.next hv hl
  have hf₁ := hfresh.after ht₁
  rw [← ht₁.missing_eq hp₃ hp₄ (by simp), ← ht₁.missing_eq hp₂ hp₄ (by simp)] at hf₁
  have hw₁ := ht₁.window_writable hw
  obtain ⟨s₂, hr₂, hs₂⟩ := mapPagePdWith_spec hst hpt₁ hw₁ hv hl₁ hflags hn₃ hf₁.of_missing
    fun hwp => hs₁.above_pd hv (habove hwp) hn₃
  have ht₂ : TableStep s₁ s₂ [index v 39, index v 30] := hs₂.toTableStep
  have hc₂ : s₂.cr3 = s.cr3 := by rw [ht₂.same]; exact hc₁
  obtain ⟨hpt₂, hl₂, hk₂, n₂, hn₂⟩ := ht₂.next hv hl₁
  have hf₂ := hf₁.after ht₂
  rw [← ht₂.missing_eq hp₂ hp₃ (by simp)] at hf₂
  have hn₃₂ := hk₂ _ _ hp₄ hn₃
  rw [← Nat.add_zero (missing s₂.mem s₂.cr3 _)] at hf₂
  have hw₂ := ht₂.window_writable hw₁
  obtain ⟨s₃, hr₃, hs₃⟩ := mapPagePtWith_spec hst hpt₂ hw₂ hv hl₂ hflags hn₃₂ hn₂ hf₂.of_missing
    fun hwp => hs₁.above_pt hv hs₂ (habove hwp) hn₃₂ hn₂
  have ht₃ : TableStep s₂ s₃ [index v 39, index v 30, index v 21] := hs₃.toTableStep
  have hc₃ : s₃.cr3 = s.cr3 := by rw [ht₃.same]; exact hc₂
  have hw₃ := ht₃.window_writable hw₂
  obtain ⟨hpt₃, -, hk₃, n₁, hn₁⟩ := ht₃.next hv hl₂
  -- the leaf entry
  obtain ⟨s₄, hr₄, he₄, hmap₄, hlinks₄⟩ := writePteWith_edited flags hst hpt₃ hw₃ hv
    (hk₃ _ _ hp₄ hn₃₂) (hk₃ _ _ hp₃ hn₂) hn₁
    (Nat.or_lt_two_pow (or_lt (b := pagingFlagPresent) hp (by decide)) hflags.lt)
  have he := ((he₄.after_step ht₃).after_step ht₂).after_step ht₁
  have hm₂ : missing s₂.mem s₂.cr3 [index v 39, index v 30, index v 21] =
      missing s.mem s.cr3 [index v 39, index v 30, index v 21] := by
    rw [ht₂.missing_eq hp₂ hp₃ (by simp), ht₁.missing_eq hp₂ hp₄ (by simp)]
  have htaken := ht₃.taken
  rw [ht₂.taken, ht₁.taken, hm₂, ht₁.missing_eq hp₃ hp₄ (by simp)] at htaken
  rw [ht₂.taken, ht₁.taken, hm₂, ht₁.missing_eq hp₃ hp₄ (by simp), List.append_nil] at he
  have hkeep₂ : ∀ q n, tablePaths.mem q → tableAt s.mem s.cr3 q = some n → tableAt s₂.mem s.cr3 q = some n :=
    fun q n hq hn => hc₂ ▸ hk₂ q n hq (hk₁ q n hq hn)
  have hkeep₃ : ∀ q n, tablePaths.mem q → tableAt s.mem s.cr3 q = some n → tableAt s₃.mem s.cr3 q = some n :=
    fun q n hq hn => hc₃ ▸ hk₃ q n hq (hc₂.symm ▸ hkeep₂ q n hq hn)
  have hlinks₃ := (hs₁.links₂ hv hs₂).trans hs₃.links hc₂ (by rintro q i (⟨rfl, -⟩ | ⟨rfl, -⟩) <;> simp) (by simp)
    (by rintro q i ((⟨rfl, rfl⟩ | ⟨rfl, rfl⟩) | ⟨rfl, rfl⟩) <;> assumption) hkeep₂
  have hlinks := hlinks₃.trans hlinks₄ hc₃
    (by rintro q i ((⟨rfl, rfl⟩ | ⟨rfl, rfl⟩) | ⟨rfl, rfl⟩) <;> simp [LeafOf]) (fun _ _ hc => hc.elim)
    (by rintro q i (((⟨rfl, rfl⟩ | ⟨rfl, rfl⟩) | ⟨rfl, rfl⟩) | hc) <;> first | assumption | exact hc.elim) hkeep₃
  refine ⟨s₄, hr₁.bind (hr₂.bind (hr₃.bind hr₄)), ?_, ?_, hlinks.congr (fun q i => ?_) fun q i => ?_⟩
  · rw [takeFrames_add, takeFrames_add]
    exact he
  · rw [hmap₄, htaken, takeFrames_add, takeFrames_add]
  · rw [upperOf_iff, or_false]
  · simp

/-- **`unmap_page`.** With the three upper tables present the call returns; the page is
not mapped, and everything else is as it was. -/
theorem unmapPageWith_spec (flags : Nat) (hst : StoresWord store wp) (h : PageTables s.mem s.cr3)
    (hw : wp → readWrite (tables s.mem (frameOf s.cr3) 511) = true) (hv : UserPage v) {n₁ : Nat}
    (hn₁ : ptAt s.mem s.cr3 v = some n₁) :
    ∃ s', (unmapPageWith store v).Returns s () s' ∧ Edited s s' v 0 [] ∧ s'.physMmap = s.physMmap ∧
      LinkEdit (fun _ _ => False) (LeafOf v) s s' flags := by
  have hn := hn₁
  rw [ptAt, show [index v 39, index v 30, index v 21] = [index v 39, index v 30] ++ [index v 21]
    from rfl, tableAt_concat, Option.bind_eq_some_iff] at hn
  obtain ⟨n₂, hn₂, -⟩ := hn
  have hn := hn₂
  rw [show [index v 39, index v 30] = [index v 39] ++ [index v 30] from rfl, tableAt_concat,
    Option.bind_eq_some_iff] at hn
  obtain ⟨n₃, hn₃, -⟩ := hn
  exact writePteWith_edited flags hst h hw hv hn₃ hn₂ hn₁ (by decide)

/-- `mapPageWith_spec` for the kernel, which runs without write protection. -/
theorem mapPage_spec (h : PageTables s.mem s.cr3) (hv : UserPage v)
    (hl : NoLargePage s.mem s.cr3 v) (hp : p < 2 ^ 64) (hflags : FlagsOk flags)
    (hfresh : FreshFrames s (missingTables s.mem s.cr3 v)) :
    ∃ s', (mapPage v p flags).Returns s () s' ∧
      Edited s s' v (p ||| pagingFlagPresent ||| flags)
        (takeFrames (missingTables s.mem s.cr3 v) s.physMmap).1 ∧
      s'.physMmap = (takeFrames (missingTables s.mem s.cr3 v) s.physMmap).2 := by
  obtain ⟨s', hret, hedit, hmap, -⟩ := mapPageWith_spec storesWord_writeWord h False.elim hv hl hp
    hflags.attributeBits False.elim hfresh
  exact ⟨s', hret, hedit, hmap⟩

theorem unmapPage_spec (h : PageTables s.mem s.cr3) (hv : UserPage v) {n₁ : Nat}
    (hn₁ : ptAt s.mem s.cr3 v = some n₁) :
    ∃ s', (unmapPage v).Returns s () s' ∧ Edited s s' v 0 [] ∧ s'.physMmap = s.physMmap := by
  obtain ⟨s', hret, hedit, hmap, -⟩ :=
    unmapPageWith_spec 0 storesWord_writeWord h False.elim hv hn₁
  exact ⟨s', hret, hedit, hmap⟩

end Spec

end KoalemOS.Paging
