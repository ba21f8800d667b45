import KoalemOS.Paging.FirstFrames
import KoalemOS.Paging.SplitPage

/-!
# The frames that a split takes (`unmap_page_fix_size` of `src/kernel/memory.c`)

A large page is split with the frames that `phys_mmap` lists first, 1 or 513 of them. Only these have to be
fit to become tables; the others may be anything, also tables of their own.

- `TableEdits`: an edit of the tables that takes the next frames
- `unmapPageFixSize_takes`: the call on a page of a large page, also where the frames run out
- `unmapPageFixSize_small`: the call on a small page, which takes none
-/

namespace KoalemOS.Paging

open KoalemOS.Library KoalemOS.Mmap

/-- From `s` to `s'` tables have been edited, and the next `k` frames of `phys_mmap` have become tables. -/
structure TableEdits (s s' : Kernel) (k : Nat) : Prop where
  cr3 : s'.cr3 = s.cr3
  pageTables : PageTables s'.mem s'.cr3
  frames : s'.physMmap = (takeFrames k s.physMmap).2
  keep : ∀ p n, tablePaths.mem p → tableAt s.mem s.cr3 p = some n → tableAt s'.mem s'.cr3 p = some n
  reach : ∀ n, IsTable s'.mem s'.cr3 n → IsTable s.mem s.cr3 n ∨ n ∈ (takeFrames k s.physMmap).1.map (· / 4096)
  nonzero : ∀ a ∈ (takeFrames k s.physMmap).1, a ≠ 0
  rows : ∀ n, ¬IsTable s.mem s.cr3 n → n ∉ (takeFrames k s.physMmap).1.map (· / 4096) → tables s'.mem n = tables s.mem n

section Edits

variable {s s₁ s₂ : Kernel} {v e j k : Nat}

theorem TableEdits.refl (h : PageTables s.mem s.cr3) : TableEdits s s 0 :=
  ⟨rfl, h, rfl, fun _ _ _ hn => hn, fun _ hn => .inl hn, nofun, fun _ _ _ => rfl⟩

theorem TableEdits.trans (h : TableEdits s s₁ j) (h' : TableEdits s₁ s₂ k) : TableEdits s s₂ (j + k) := by
  have hsum := takeFrames_add j k s.physMmap
  rw [← h.frames] at hsum
  refine ⟨h'.cr3.trans h.cr3, h'.pageTables, ?_, fun p n hp hn => h'.keep p n hp (h.keep p n hp hn), fun n hn => ?_,
    fun a ha => ?_, fun n hn hf => ?_⟩
  · rw [hsum]
    exact h'.frames
  · rw [hsum, List.map_append, List.mem_append, ← or_assoc]
    exact (h'.reach n hn).imp (h.reach n) id
  · rw [hsum, List.mem_append] at ha
    exact ha.elim (h.nonzero a) (h'.nonzero a)
  · rw [hsum, List.map_append, List.mem_append, not_or] at hf
    rw [h'.rows n (fun ht => (h.reach n ht).elim hn hf.1) hf.2, h.rows n hn hf.1]

theorem TableEdits.of_edited (h : Edited s s₁ v e (takeFrames k s.physMmap).1)
    (hmap : s₁.physMmap = (takeFrames k s.physMmap).2) (hnz : ∀ a ∈ (takeFrames k s.physMmap).1, a ≠ 0) :
    TableEdits s s₁ k :=
  ⟨h.cr3, h.pageTables, hmap, h.keep, h.reach, hnz, h.rows⟩

/-- An edit takes frames that are there. -/
theorem TableEdits.le_length (h : TableEdits s s₁ k) (hwf : s.physMmap.Wf) : k ≤ s.physMmap.freePages.length := by
  obtain ⟨-, hperm⟩ := takeFrames_pages hwf h.nonzero
  have hlen := hperm.length_eq
  rw [List.length_append, takeFrames_length] at hlen
  omega

/-- The frames behind those that an edit has taken. -/
theorem FrameSupply.edited {P : Nat → Prop} (h : FrameSupply P s (j + k)) (he : TableEdits s s₁ j) :
    FrameSupply P s₁ k ∧ s₁.physMmap.freePages.length + j = s.physMmap.freePages.length :=
  h.advance (he.le_length h.wf) he.cr3 he.frames fun n hn => he.reach n (he.cr3.symm ▸ hn)

end Edits

/-! ## A large page -/

/-- From `s` to `s'` the page of `v` has been unmapped; the other pages of its block are small pages now. -/
structure UnmapTakes (s s' : Kernel) (v shift base flags : Nat) : Prop where
  edits : ∃ k ≤ splitTables shift, TableEdits s s' k
  entry : ∃ n, ptAt s'.mem s'.cr3 v = some n ∧ tables s'.mem n (index v 12) = 0
  mapped : ∀ w, w / 2 ^ shift = v / 2 ^ shift → w / 4096 ≠ v / 4096 →
    walk s'.mem s'.cr3 w = some (base + w % 2 ^ shift / 4096 * 4096 + (flags + 1), 12)
  others : ∀ w, index w 39 ≠ 511 → w / 2 ^ shift ≠ v / 2 ^ shift →
    walk s'.mem s'.cr3 w = walk s.mem s.cr3 w

section Call

variable {s t : Kernel} {v shift base flags n k : Nat} {p : List (Fin 512)} {i : Fin 512}

/-- The frames taken so far, and those that the pages still to be mapped need, are not too many. -/
def TakesFor (s t : Kernel) (shift : Nat) (q : List (Fin 512)) : Prop :=
  ∃ k, TableEdits s t k ∧ k + missingBelow t.mem s.cr3 q ≤ splitTables shift

/-- One more page of the block. -/
theorem TakesFor.step (ht : TakesFor s t shift (p ++ [i])) (hb : BlockMapped s t v shift base flags k)
    (hnext : FreshFrames t (missingTables t.mem t.cr3 (blockPage v shift k))) (hslot : LeafSlot v shift p i) (hs : shift ≠ 12)
    (hc : canonical v = true) (hv : index v 39 ≠ 511) (hp : tableAt s.mem s.cr3 p = some n)
    (hk : 4096 * k < 2 ^ shift) (hbase : FrameAddr base) (hflags : FlagsOk flags) :
    ∃ t', (mapPage (blockPage v shift k) (base + 4096 * k) flags).Returns t () t' ∧
      TakesFor s t' shift (p ++ [i]) ∧ BlockMapped s t' v shift base flags (k + 1) := by
  obtain ⟨j, hedits, hcount⟩ := ht
  have hs' := hslot.large hs
  have hshift : 2 ^ shift ≤ 2 ^ 30 := Nat.pow_le_pow_right (by decide) hslot.shift_le.2
  have hbaselt := hbase.lt
  obtain ⟨hblock, -, -⟩ := blockPage_mod (v := v) hs' hk
  have hpage := userPage_blockPage hc hv hs' hk
  have hw := hslot.of_same_block hblock
  have hn : tableAt t.mem s.cr3 p = some n := hedits.cr3 ▸ hedits.keep p n (hslot.mem hv) hp
  have hsmall : NoLargePage t.mem t.cr3 (blockPage v shift k) := by
    rw [hedits.cr3]
    exact hb.small _ hblock
  obtain ⟨t', hret, hedit, hmap⟩ := mapPage_spec (p := base + 4096 * k) hedits.pageTables hpage hsmall
    (by omega) hflags hnext
  have hstep := TableEdits.of_edited hedit hmap fun a ha => (hnext.good a ha).nonzero
  have hc' : t'.cr3 = s.cr3 := hedit.cr3.trans hedits.cr3
  refine ⟨t', hret, ⟨_, hedits.trans hstep, ?_⟩, hb.step hslot hs hc hv hk hbase hflags hedits.cr3 hedit⟩
  obtain ⟨a, ha, -⟩ := hedit.ptAt
  have hless : missingBelow t'.mem s.cr3 (p ++ [i]) + missingTables t.mem s.cr3 (blockPage v shift k) ≤
      missingBelow t.mem s.cr3 (p ++ [i]) := missingBelow_step hw hs hpage.slot hn
    (fun q m hq hm => hc' ▸ hedit.keep q m hq (hedits.cr3.symm ▸ hm)) ⟨a, hc' ▸ ha⟩
  rw [hedits.cr3]
  omega

/-- The frames for the next page of the block. -/
theorem TakesFor.supply {P : Nat → Prop} (ht : TakesFor s t shift (p ++ [i])) (hsupply : FrameSupply P s (splitTables shift))
    (hslot : LeafSlot v shift p i) (hs : shift ≠ 12) (hv : index v 39 ≠ 511) (hp : tableAt s.mem s.cr3 p = some n)
    (hk : 4096 * k < 2 ^ shift) :
    FrameSupply P t (missingTables t.mem t.cr3 (blockPage v shift k)) ∧
      (missingTables t.mem t.cr3 (blockPage v shift k) ≤ t.physMmap.freePages.length ∨
        s.physMmap.freePages.length < splitTables shift) := by
  obtain ⟨j, hedits, hcount⟩ := ht
  obtain ⟨hblock, -, -⟩ := blockPage_mod (v := v) (hslot.large hs) hk
  have hw := hslot.of_same_block hblock
  have hn : tableAt t.mem s.cr3 p = some n := hedits.cr3 ▸ hedits.keep p n (hslot.mem hv) hp
  have hmissing : missingTables t.mem t.cr3 (blockPage v shift k) ≤ missingBelow t.mem s.cr3 (p ++ [i]) := by
    rw [hedits.cr3]
    exact missingTables_le hw hs hn
  obtain ⟨hsupply', hlen⟩ := (hsupply.of_le hcount).edited hedits
  exact ⟨hsupply'.of_le hmissing, by omega⟩

/-- `unmap_page_fix_size` on a page of a large page. The call returns if there are frames for the tables;
whether it returns or not, none of the frames that it hands out is a table at that moment. -/
theorem unmapPageFixSize_takes {P : Nat → Prop} (h : PageTables s.mem s.cr3) (hc : canonical v = true)
    (hv : index v 39 ≠ 511) (hslot : LeafSlot v shift p i) (hs : shift ≠ 12) (hn : tableAt s.mem s.cr3 p = some n)
    (hsize : pageSize (tables s.mem n i) = true) (hsupply : FrameSupply P s (splitTables shift)) :
    Outcome.ends (fun _ s' => HandsOut P s s' ∧ UnmapTakes s s' v shift (tables s.mem n i &&& 0xFFFFFFFFF000)
      (tables s.mem n i &&& 0x3E))
      (fun s' => HandsOut P s s' ∧ s.physMmap.freePages.length < splitTables shift) (unmapPageFixSize v) s := by
  have hs' := hslot.large hs
  have hflags := flagsOk_and (tables s.mem n i)
  have hbase := frameAddr_and (tables s.mem n i)
  have hp := hslot.mem (S := (· ≠ 511)) hv
  have hsame : v / 4096 * 4096 / 4096 = v / 4096 := by omega
  have hpage : UserPage (v / 4096 * 4096) := by
    refine ⟨by rw [canonical_of_same_page hsame, hc], by omega, ?_⟩
    rw [index_of_same_page hsame (by decide)]
    exact hv
  have hlt : v < 2 ^ 64 := by
    have := hpage.lt
    omega
  obtain ⟨m', hm, hcall⟩ := unmapPageFixSize_eq h hv hslot hs hlt hn hsize
  obtain ⟨hpt, htab, hent, hsmall⟩ := cleared_tables h hslot hs hv hn hsize hm
  have hn' : tableAt m' s.cr3 p = some n := (htab p hp).trans hn
  generalize tables s.mem n i &&& 0x3E = flags at *
  generalize tables s.mem n i &&& 0xFFFFFFFFF000 = base at *
  -- the large entry has been cleared: no table is taken for that
  have hclear : TableEdits s { s with mem := m' } 0 := by
    refine ⟨rfl, hpt, rfl, fun q n hq hn => (htab q hq).trans hn, ?_, nofun, fun a ha _ => ?_⟩
    · rintro a ⟨q, hq, hqa⟩
      exact .inl ⟨q, hq, (htab q hq).symm.trans hqa⟩
    · funext j
      show tables m' a j = _
      rw [hm, Tables.set_apply_of_ne (.inl ?_)]
      rintro rfl
      exact ha ⟨p, hp, hn⟩
  obtain ⟨hsupply', hlen'⟩ := (Nat.zero_add (splitTables shift) ▸ hsupply).edited hclear
  rw [Nat.add_zero] at hlen'
  -- the small pages, one after the other
  have hloop : Outcome.ends (fun _ t => HandsOut P { s with mem := m' } t ∧
        TakesFor { s with mem := m' } t shift (p ++ [i]) ∧
        BlockMapped { s with mem := m' } t v shift base flags (0 + 2 ^ shift / 4096))
      (fun t => HandsOut P { s with mem := m' } t ∧ s.physMmap.freePages.length < splitTables shift)
      (splitPage (blockPage v shift 0) base flags (2 ^ shift / 4096)) { s with mem := m' } := by
    refine Outcome.ends_loop (fun k t => HandsOut P { s with mem := m' } t ∧
      TakesFor { s with mem := m' } t shift (p ++ [i]) ∧ BlockMapped { s with mem := m' } t v shift base flags k) 0 _
      (fun k t _ hk ht => ?_) ⟨.refl P _, ⟨0, .refl hpt, ?_⟩, ?_⟩
    · obtain ⟨hout, htakes, hb⟩ := ht
      have hk' : 4096 * k < 2 ^ shift := by omega
      have hbaselt := hbase.lt
      have hshift : 2 ^ shift ≤ 2 ^ 30 := Nat.pow_le_pow_right (by decide) hslot.shift_le.2
      obtain ⟨hsupplyₜ, henough⟩ := htakes.supply hsupply' hslot hs hv hn' hk'
      have hpageₖ := userPage_blockPage hc hv hs' hk'
      have hptₜ : PageTables t.mem t.cr3 := htakes.elim fun _ he => he.1.pageTables
      have hsmallₜ : NoLargePage t.mem t.cr3 (blockPage v shift k) := by
        rw [hout.cr3]
        exact hb.small _ (blockPage_mod hs' hk').1
      have haddr : blockPage v shift 0 + 0x1000 * k = blockPage v shift k := by
        unfold blockPage
        omega
      rw [haddr, wrap_of_lt hpageₖ.lt, wrap_of_lt (by omega)]
      have hmap := mapPage_handsOut (p := base + 4096 * k) hptₜ hpageₖ hsmallₜ hflags hsupplyₜ
      have hstep := fun hle => htakes.step hb (hsupplyₜ.fresh hle) hslot hs hc hv hn' hk' hbase hflags
      rcases Outcome.returns_or_stops (mapPage (blockPage v shift k) (base + 4096 * k) flags) t with
        ⟨_, t', hret⟩ | ⟨_, t', hstop⟩
      · obtain ⟨hout', hle⟩ := hret.of_ends hmap
        obtain ⟨u, hret', htakes', hb'⟩ := hstep hle
        obtain ⟨-, rfl⟩ := hret.det hret'
        exact Outcome.ends_of_returns hret ⟨hout.trans hout', htakes', hb'⟩
      · -- the frames have run out
        refine Outcome.ends_of_stops hstop ⟨hout.trans (hstop.of_ends hmap), henough.resolve_left fun hle => ?_⟩
        obtain ⟨u, hret', -⟩ := hstep hle
        exact hret'.not_stops hstop
    · rw [Nat.zero_add]
      exact missingBelow_le hslot hs
    · exact ⟨hsmall, fun w _ hlt => by omega, fun _ _ _ => rfl⟩
  rw [Nat.zero_add] at hloop
  have hclearOut : HandsOut P s { s with mem := m' } := (HandsOut.refl P s).withMem m'
  have hends : Outcome.ends (fun _ s' => HandsOut P s s' ∧ UnmapTakes s s' v shift base flags)
      (fun s' => HandsOut P s s' ∧ s.physMmap.freePages.length < splitTables shift)
      (splitPage (blockPage v shift 0) base flags (2 ^ shift / 4096) >>= fun _ => unmapPage v) { s with mem := m' } := by
    refine Outcome.ends_bind (Outcome.ends_weaken (Outcome.ends_mono hloop fun _ t ht => ?_) fun t ht =>
      ⟨hclearOut.trans ht.1, ht.2⟩)
    obtain ⟨hout, ⟨k, hedits, hk⟩, hb⟩ := ht
    -- every page of the block is mapped now
    have hct : t.cr3 = s.cr3 := hedits.cr3
    have hall : ∀ w, w / 2 ^ shift = v / 2 ^ shift →
        walk t.mem t.cr3 w = some (base + w % 2 ^ shift / 4096 * 4096 + (flags + 1), 12) := by
      intro w hw
      rw [hct]
      refine hb.mapped w hw ?_
      rcases hs' with rfl | rfl <;> omega
    have hblock : v / 4096 * 4096 / 2 ^ shift = v / 2 ^ shift := by
      rcases hs' with rfl | rfl <;> omega
    obtain ⟨a, ha, -⟩ := ptAt_of_walk (hall _ hblock)
    obtain ⟨s', hunmap, hedit, hmap⟩ := unmapPage_spec hedits.pageTables hpage ha
    rw [← unmapPage_page] at hunmap
    have hlast : TableEdits t s' 0 := TableEdits.of_edited hedit hmap nofun
    have hlastOut := (keeps_writePte (fun _ m hu => hu.withMem m) v 0).returns (HandsOut.refl P t) hunmap
    refine Outcome.ends_of_returns hunmap ⟨hclearOut.trans (hout.trans hlastOut), ⟨⟨k, by omega, ?_⟩, ?_,
      fun w hw hne => ?_, fun w hw hne => ?_⟩⟩
    · have hfirst := hclear.trans (hedits.trans hlast)
      rwa [Nat.add_zero, Nat.zero_add] at hfirst
    · obtain ⟨n', hn', hzero⟩ := hedit.ptAt
      rw [ptAt, index_of_same_page hsame (by decide), index_of_same_page hsame (by decide),
        index_of_same_page hsame (by decide)] at hn'
      rw [index_of_same_page hsame le_rfl] at hzero
      exact ⟨n', hn', hzero⟩
    · have hslot' : index w 39 ≠ 511 := by
        rw [index_blockPage hs' hw]
        exact hv
      rw [hedit.others w hslot' (by rwa [hsame]), hall w hw]
    · have hne' : w / 4096 ≠ v / 4096 * 4096 / 4096 := by
        intro heq
        refine hne ?_
        rcases hs' with rfl | rfl <;> omega
      rw [hedit.others w hw hne', hct]
      exact (hb.others w hw hne).trans (walk_off_leafSlot hc hslot hent hw hne)
  unfold Outcome.ends at hends ⊢
  rwa [hcall]

/-- `unmap_page_fix_size` on a page that has a page table is `unmap_page`. -/
theorem unmapPageFixSize_small (h : PageTables s.mem s.cr3) (hv : UserPage v) (hn : ptAt s.mem s.cr3 v = some n) :
    ∃ s', (unmapPageFixSize v).Returns s () s' ∧ Edited s s' v 0 [] ∧ s'.physMmap = s.physMmap ∧
      (unmapPage v).Returns s () s' := by
  obtain ⟨s', hret, hedit, hmap⟩ := unmapPage_spec h hv hn
  obtain ⟨n₂, hn₂, hlink₁⟩ := Option.bind_eq_some_iff.mp
    ((tableAt_concat s.mem s.cr3 [index v 39, index v 30] (index v 21)).symm.trans hn)
  obtain ⟨n₃, hn₃, hlink₂⟩ := Option.bind_eq_some_iff.mp
    ((tableAt_concat s.mem s.cr3 [index v 39] (index v 30)).symm.trans hn₂)
  have hread₃ : (readWord (pdpteAddrOf v)).Returns s _ s := readEntry ((shows_pdpte v).translate h.selfMap hn₃)
  have hread₂ : (readWord (pdeAddrOf v)).Returns s _ s := readEntry ((shows_pde v).translate h.selfMap hn₂)
  refine ⟨s', hread₃.bind ?_, hedit, hmap, hret⟩
  rw [if_neg (by simp [(link_eq_some.mp hlink₂).2.1])]
  refine hread₂.bind ?_
  rw [if_neg (by simp [(link_eq_some.mp hlink₁).2.1])]
  exact hret

end Call

end KoalemOS.Paging
