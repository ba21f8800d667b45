import KoalemOS.Paging.Attributes
import KoalemOS.Paging.FreeFrames
import Mathlib.Algebra.BigOperators.Fin
import Mathlib.Algebra.Order.BigOperators.Group.Finset

/-!
# Splitting a large page

`unmap_page_fix_size` clears the entry of a large page, maps the small pages of the block one
by one, and unmaps the page it is about.

- `clearPdpte_spec`, `clearPde_spec`: the large entry is cleared
- `Splitting`: the state while the small pages are mapped, page after page
- `view_of_large`, `Splitting.view_of_small`: what the hardware makes of an address of the
  block before and after
- `unmapPageFixSize_iff`: a split keeps the rest of the large page and all other pages if
  and only if the large entry fits into small ones (`FitsSmall`)
-/

namespace KoalemOS.Paging

open KoalemOS.Library KoalemOS.Mmap

/-! ## The pages of a block -/

/-- Page `k` of the block of `2 ^ shift` bytes around an address. -/
def blockPage (v shift k : Nat) : Nat := v / 2 ^ shift * 2 ^ shift + 4096 * k

section Blocks

variable {v w shift k : Nat} {p : List (Fin 512)} {i : Fin 512}

theorem LeafSlot.large (h : LeafSlot v shift p i) (hs : shift ≠ 12) : shift = 21 ∨ shift = 30 := by
  cases h <;> simp_all

theorem blockPage_mod (hs : shift = 21 ∨ shift = 30) (hk : 4096 * k < 2 ^ shift) :
    blockPage v shift k / 2 ^ shift = v / 2 ^ shift ∧ blockPage v shift k % 2 ^ shift = 4096 * k ∧
      blockPage v shift k % 4096 = 0 := by
  unfold blockPage
  rcases hs with rfl | rfl <;> omega

/-- The addresses of page `k`. -/
theorem blockPage_iff (hs : shift = 21 ∨ shift = 30) (hk : 4096 * k < 2 ^ shift)
    (hw : w / 2 ^ shift = v / 2 ^ shift) :
    w / 4096 = blockPage v shift k / 4096 ↔ w % 2 ^ shift / 4096 = k := by
  unfold blockPage
  rcases hs with rfl | rfl <;> omega

theorem index_blockPage (hs : shift = 21 ∨ shift = 30) (hw : w / 2 ^ shift = v / 2 ^ shift) :
    index w 39 = index v 39 :=
  index_of_same_block hw (by omega)

theorem userPage_blockPage (hc : canonical v = true) (hv : index v 39 ≠ 511)
    (hs : shift = 21 ∨ shift = 30) (hk : 4096 * k < 2 ^ shift) : UserPage (blockPage v shift k) := by
  obtain ⟨hblock, -, haligned⟩ := blockPage_mod (v := v) hs hk
  refine ⟨?_, haligned, ?_⟩
  · rw [canonical_of_same_block (by omega) hblock, hc]
  · rw [index_blockPage hs hblock]
    exact hv

end Blocks

/-! ## Clearing the large entry -/

section Clear

variable {s : Kernel} {v n₃ n₂ : Nat}

/-- An edit of a table below the PML4 leaves the PML4 open. -/
theorem Open.root_of_set {m m' : Mem} {cr3 n e : Nat} {i : Fin 512}
    (ho : Open False m cr3 [] (frameOf cr3)) (hn : n ≠ frameOf cr3)
    (hm : tables m' = (tables m).set n i e) : Open False m' cr3 [] (frameOf cr3) := by
  refine ho.congr ?_ fun q j b hq _ => by simp at hq
  rw [hm, Tables.set_apply_of_ne (.inl hn.symm)]

theorem clearPdpte_spec (h : PageTables s.mem s.cr3) (hv : index v 39 ≠ 511)
    (hn₃ : tableAt s.mem s.cr3 [index v 39] = some n₃) :
    ∃ m', (clearPdpte v).Returns s () { s with mem := m' } ∧
      tables m' = (tables s.mem).set n₃ (index v 30) 0 := by
  have hst := storesWord_writeWord
  have hp₄ : tablePaths.mem ([] ++ [index v 39]) := (UpperOf.pml4.mem hv).2
  have ho : Open False s.mem s.cr3 [] (frameOf s.cr3) := Open.root h False.elim
  have hne₃ : n₃ ≠ frameOf s.cr3 := h.table_ne hp₄ tablePaths.nil_mem hn₃ ho.path (by simp)
  obtain ⟨s₁, hr₁, hs₁, ht₁, hg₁, ho₁, ho₁'⟩ := ho.raise rfl hst h (shows_pml4e v) hp₄ hn₃
  have hc₁ : s₁.cr3 = s.cr3 := by rw [hs₁]
  have hstore := ho₁'.storeEntry hc₁ hst (shows_pdpte v) 0
  have ht₂ := tables_setEntry s₁ n₃ (index v 30) (e := 0) (by decide)
  -- restore the PML4 entry
  have ho₂ := ho₁.root_of_set hne₃ ht₂
  have hlast := ho₂.storeEntry (s := s₁.setEntry n₃ (index v 30) 0) hc₁ hst (shows_pml4e v)
    (tables s.mem (frameOf s.cr3) (index v 39))
  generalize hs₃ : (s₁.setEntry n₃ (index v 30) 0).setEntry (frameOf s.cr3) (index v 39)
    (tables s.mem (frameOf s.cr3) (index v 39)) = s₃ at hlast
  have ht₃ : tables s₃.mem = (tables s.mem).set n₃ (index v 30) 0 := by
    rw [← hs₃, tables_setEntry _ _ _ (tables_lt _ _ _), ht₂, ht₁]
    exact Tables.set_restore hne₃
  have hsame : s₃ = { s with mem := s₃.mem } := by
    rw [← hs₃, hs₁]
    rfl
  refine ⟨s₃.mem, ?_, ht₃⟩
  rw [← hsame]
  exact (ho.readEntry rfl (shows_pml4e v)).bind (hr₁.bind (hstore.bind hlast))

theorem clearPde_spec (h : PageTables s.mem s.cr3) (hv : index v 39 ≠ 511)
    (hn₃ : tableAt s.mem s.cr3 [index v 39] = some n₃)
    (hn₂ : tableAt s.mem s.cr3 [index v 39, index v 30] = some n₂) :
    ∃ m', (clearPde v).Returns s () { s with mem := m' } ∧
      tables m' = (tables s.mem).set n₂ (index v 21) 0 := by
  have hst := storesWord_writeWord
  have hp₃ : tablePaths.mem ([index v 39] ++ [index v 30]) := (UpperOf.pdpt.mem hv).2
  have hp₄ : tablePaths.mem ([] ++ [index v 39]) := (UpperOf.pml4.mem hv).2
  have ho : Open False s.mem s.cr3 [] (frameOf s.cr3) := Open.root h False.elim
  have hne₃ : n₃ ≠ frameOf s.cr3 := h.table_ne hp₄ tablePaths.nil_mem hn₃ ho.path (by simp)
  have hne₂ : n₂ ≠ frameOf s.cr3 := h.table_ne hp₃ tablePaths.nil_mem hn₂ ho.path (by simp)
  have hne₂₃ : n₂ ≠ n₃ := h.table_ne hp₃ hp₄ hn₂ hn₃ (by simp)
  obtain ⟨s₁, hr₁, hs₁, ht₁, hg₁, ho₁, ho₁'⟩ := ho.raise rfl hst h (shows_pml4e v) hp₄ hn₃
  have hc₁ : s₁.cr3 = s.cr3 := by rw [hs₁]
  obtain ⟨s₂, hr₂, hs₂, ht₂, hg₂, ho₂, ho₂'⟩ :=
    ho₁'.raise hc₁ hst hg₁.pageTables (shows_pdpte v) hp₃ (hg₁.keep _ _ hp₃ hn₂)
  have hc₂ : s₂.cr3 = s.cr3 := by rw [hs₂]; exact hc₁
  have hstore := ho₂'.storeEntry hc₂ hst (shows_pde v) 0
  have ht₃ := tables_setEntry s₂ n₂ (index v 21) (e := 0) (by decide)
  -- restore the PDPT entry, then the PML4 entry
  have ho₃ : Open False (s₂.setEntry n₂ (index v 21) 0).mem s.cr3 [index v 39] n₃ := by
    refine ho₂.of_edit hg₂.pageTables hp₃ ho₂'.path ⟨[index v 30], rfl⟩ ?_ fun b _ hb => ?_
    · rw [ht₃, Tables.set_apply_of_ne (.inl hne₂.symm)]
    · funext j
      rw [ht₃, Tables.set_apply_of_ne (.inl hb)]
  have hlast₃ := ho₃.storeEntry (s := s₂.setEntry n₂ (index v 21) 0) hc₂ hst (shows_pdpte v)
    (tables s₁.mem n₃ (index v 30))
  generalize hs₄ : (s₂.setEntry n₂ (index v 21) 0).setEntry n₃ (index v 30) (tables s₁.mem n₃ (index v 30)) = s₄
    at hlast₃
  have hc₄ : s₄.cr3 = s.cr3 := by rw [← hs₄]; exact hc₂
  have ht₄ : tables s₄.mem = (tables s₁.mem).set n₂ (index v 21) 0 := by
    rw [← hs₄, tables_setEntry _ _ _ (tables_lt _ _ _), ht₃, ht₂]
    exact Tables.set_restore hne₂₃
  have ho₄ := ho₁.root_of_set hne₂ ht₄
  have hlast₄ := ho₄.storeEntry hc₄ hst (shows_pml4e v) (tables s.mem (frameOf s.cr3) (index v 39))
  generalize hs₅ : s₄.setEntry (frameOf s.cr3) (index v 39) (tables s.mem (frameOf s.cr3) (index v 39)) = s₅
    at hlast₄
  have ht₅ : tables s₅.mem = (tables s.mem).set n₂ (index v 21) 0 := by
    rw [← hs₅, tables_setEntry _ _ _ (tables_lt _ _ _), ht₄, ht₁]
    exact Tables.set_restore hne₂
  have hsame : s₅ = { s with mem := s₅.mem } := by
    rw [← hs₅, ← hs₄, hs₂, hs₁]
    rfl
  refine ⟨s₅.mem, ?_, ht₅⟩
  rw [← hsame]
  refine (ho.readEntry rfl (shows_pml4e v)).bind (hr₁.bind ?_)
  exact (ho₁'.readEntry hc₁ (shows_pdpte v)).bind (hr₂.bind (hstore.bind (hlast₃.bind hlast₄)))

/-- The call for a page of a large page: the large entry is cleared, the small pages of the block
are mapped, and the page is unmapped. -/
theorem unmapPageFixSize_eq {shift n : Nat} {p : List (Fin 512)} {i : Fin 512}
    (h : PageTables s.mem s.cr3) (hv : index v 39 ≠ 511) (hslot : LeafSlot v shift p i) (hs : shift ≠ 12)
    (hlt : v < 2 ^ 64) (hn : tableAt s.mem s.cr3 p = some n) (hsize : pageSize (tables s.mem n i) = true) :
    ∃ m', tables m' = (tables s.mem).set n i 0 ∧ unmapPageFixSize v s =
      (splitPage (blockPage v shift 0) (tables s.mem n i &&& 0xFFFFFFFFF000) (tables s.mem n i &&& 0x3E)
        (2 ^ shift / 4096) >>= fun _ => unmapPage v) { s with mem := m' } := by
  cases hslot with
  | small => exact absurd rfl hs
  | size1G =>
    obtain ⟨m', hclear, hm'⟩ := clearPdpte_spec h hv hn
    refine ⟨m', hm', ?_⟩
    have hread : (readWord (pdpteAddrOf v)).Returns s _ s :=
      readEntry ((shows_pdpte v).translate h.selfMap hn)
    have halign : alignDown v 0x40000000 = blockPage v 30 0 := by
      rw [blockPage, Nat.mul_zero, Nat.add_zero]
      exact alignDown_two_pow (k := 30) hlt (by decide)
    rw [← halign]
    refine hread.bind_eq.trans ?_
    rw [if_pos hsize]
    exact hclear.bind_eq
  | size2M =>
    have hn₂ := hn
    rw [show [index v 39, index v 30] = [index v 39] ++ [index v 30] from rfl, tableAt_concat,
      Option.bind_eq_some_iff] at hn₂
    obtain ⟨n₃, hn₃, hlink⟩ := hn₂
    obtain ⟨m', hclear, hm'⟩ := clearPde_spec h hv hn₃ hn
    refine ⟨m', hm', ?_⟩
    have hread₃ : (readWord (pdpteAddrOf v)).Returns s _ s :=
      readEntry ((shows_pdpte v).translate h.selfMap hn₃)
    have hread₂ : (readWord (pdeAddrOf v)).Returns s _ s :=
      readEntry ((shows_pde v).translate h.selfMap hn)
    have halign : alignDown v 0x200000 = blockPage v 21 0 := by
      rw [blockPage, Nat.mul_zero, Nat.add_zero]
      exact alignDown_two_pow (k := 21) hlt (by decide)
    rw [← halign]
    refine hread₃.bind_eq.trans ?_
    rw [if_neg (by simp [(link_eq_some.mp hlink).2.1])]
    refine hread₂.bind_eq.trans ?_
    rw [if_pos hsize]
    exact hclear.bind_eq

/-- It returns where its parts do. -/
theorem unmapPageFixSize_returns {shift n : Nat} {p : List (Fin 512)} {i : Fin 512}
    (h : PageTables s.mem s.cr3) (hv : index v 39 ≠ 511) (hslot : LeafSlot v shift p i) (hs : shift ≠ 12)
    (hlt : v < 2 ^ 64) (hn : tableAt s.mem s.cr3 p = some n) (hsize : pageSize (tables s.mem n i) = true) :
    ∃ m', tables m' = (tables s.mem).set n i 0 ∧ ∀ s₂ s₃,
      (splitPage (blockPage v shift 0) (tables s.mem n i &&& 0xFFFFFFFFF000) (tables s.mem n i &&& 0x3E)
        (2 ^ shift / 4096)).Returns { s with mem := m' } () s₂ →
      (unmapPage v).Returns s₂ () s₃ → (unmapPageFixSize v).Returns s () s₃ := by
  obtain ⟨m', hm', heq⟩ := unmapPageFixSize_eq h hv hslot hs hlt hn hsize
  refine ⟨m', hm', fun s₂ s₃ hsplit hunmap => ?_⟩
  show unmapPageFixSize v s = _
  rw [heq]
  exact hsplit.bind hunmap

/-- Addresses of one page have the same entries. -/
theorem unmapPage_page (v : Nat) : unmapPage v = unmapPage (v / 4096 * 4096) := by
  have h₄ : pml4eAddrOf (v / 4096 * 4096) = pml4eAddrOf v := by
    rw [pml4eAddrOf_eq, pml4eAddrOf_eq]
    omega
  have h₃ : pdpteAddrOf (v / 4096 * 4096) = pdpteAddrOf v := by
    rw [pdpteAddrOf_eq, pdpteAddrOf_eq]
    omega
  have h₂ : pdeAddrOf (v / 4096 * 4096) = pdeAddrOf v := by
    rw [pdeAddrOf_eq, pdeAddrOf_eq]
    omega
  have h₁ : pteAddrOf (v / 4096 * 4096) = pteAddrOf v := by
    rw [pteAddrOf_eq, pteAddrOf_eq]
    omega
  unfold unmapPage writePte
  rw [h₄, h₃, h₂, h₁]

end Clear

/-! ## The tables a split takes -/

/-- The tables that the small pages of a large page lack, `q` being the path through the large
entry. -/
def missingBelow (m : Mem) (cr3 : Nat) (q : List (Fin 512)) : Nat :=
  missing m cr3 q + if q.length = 2 then ∑ j, missing m cr3 (q ++ [j]) else 0

/-- One page table for 2 MiB; one page directory and 512 page tables for 1 GiB. -/
def splitTables (shift : Nat) : Nat := if shift = 30 then 513 else 1

section Counting

variable {m m' : Mem} {cr3 v w n shift : Nat} {p q : List (Fin 512)} {i j : Fin 512}

theorem missing_le_one (m : Mem) (cr3 : Nat) (q : List (Fin 512)) : missing m cr3 q ≤ 1 := by
  unfold missing
  split_ifs <;> decide

theorem missing_mono (hkeep : ∀ n, tableAt m cr3 q = some n → tableAt m' cr3 q = some n) :
    missing m' cr3 q ≤ missing m cr3 q := by
  cases hn : tableAt m cr3 q with
  | none =>
    rw [missing.eq_def m, if_pos hn]
    exact missing_le_one _ _ _
  | some n =>
    rw [missing_of_some (hkeep n hn)]
    exact Nat.zero_le _

theorem missingBelow_of_two (hq : q.length = 2) :
    missingBelow m cr3 q = missing m cr3 q + ∑ j, missing m cr3 (q ++ [j]) := by
  rw [missingBelow, if_pos hq]

theorem missingBelow_of_three (hq : q.length = 3) : missingBelow m cr3 q = missing m cr3 q := by
  rw [missingBelow, if_neg (by omega), Nat.add_zero]

theorem missingBelow_le (h : LeafSlot v shift p i) (hs : shift ≠ 12) :
    missingBelow m cr3 (p ++ [i]) ≤ splitTables shift := by
  have hone := missing_le_one m cr3 (p ++ [i])
  cases h with
  | small => exact absurd rfl hs
  | size2M =>
    rw [missingBelow_of_three rfl]
    exact hone
  | size1G =>
    have hsum : ∑ j, missing m cr3 ([index v 39] ++ [index v 30] ++ [j]) ≤ ∑ _j : Fin 512, 1 :=
      Finset.sum_le_sum fun j _ => missing_le_one _ _ _
    rw [Finset.sum_const, Finset.card_univ, Fintype.card_fin, smul_eq_mul] at hsum
    have htables : splitTables 30 = 513 := rfl
    rw [missingBelow_of_two rfl, htables]
    omega

theorem missingTables_of_pdpt (hn : tableAt m cr3 [index w 39] = some n) :
    missingTables m cr3 w =
      missing m cr3 [index w 39, index w 30] + missing m cr3 [index w 39, index w 30, index w 21] := by
  rw [missingTables, missing_of_some hn, Nat.zero_add]

theorem missingTables_of_pd (hn : tableAt m cr3 [index w 39, index w 30] = some n) :
    missingTables m cr3 w = missing m cr3 [index w 39, index w 30, index w 21] := by
  obtain ⟨n₃, hn₃⟩ := tableAt_of_isPrefix (q := [index w 39]) hn ⟨[index w 30], rfl⟩
  rw [missingTables_of_pdpt hn₃, missing_of_some hn, Nat.zero_add]

/-- The tables missing for a page of the block are missing for the block. -/
theorem missingTables_le (h : LeafSlot w shift p i) (hs : shift ≠ 12) (hp : tableAt m cr3 p = some n) :
    missingTables m cr3 w ≤ missingBelow m cr3 (p ++ [i]) := by
  cases h with
  | small => exact absurd rfl hs
  | size2M =>
    rw [missingTables_of_pd hp, missingBelow_of_three rfl]
    exact le_rfl
  | size1G =>
    rw [missingTables_of_pdpt hp, missingBelow_of_two rfl]
    simp only [List.cons_append, List.nil_append]
    have hle : missing m cr3 [index w 39, index w 30, index w 21] ≤
        ∑ j, missing m cr3 [index w 39, index w 30, j] :=
      Finset.single_le_sum (f := fun j => missing m cr3 [index w 39, index w 30, j])
        (fun _ _ => Nat.zero_le _) (Finset.mem_univ (index w 21))
    omega

/-- Tables that have been added are not missing any more. -/
theorem missingBelow_step (h : LeafSlot w shift p i) (hs : shift ≠ 12) (hw : index w 39 ≠ 511)
    (hp : tableAt m cr3 p = some n)
    (hkeep : ∀ q n, tablePaths.mem q → tableAt m cr3 q = some n → tableAt m' cr3 q = some n)
    (hpt : ∃ k, ptAt m' cr3 w = some k) :
    missingBelow m' cr3 (p ++ [i]) + missingTables m cr3 w ≤ missingBelow m cr3 (p ++ [i]) := by
  obtain ⟨k, hk⟩ := hpt
  obtain ⟨k₂, hk₂⟩ := tableAt_of_isPrefix (q := [index w 39, index w 30]) hk ⟨[index w 21], rfl⟩
  have hpt' := missing_of_some hk
  have hpd' := missing_of_some hk₂
  cases h with
  | small => exact absurd rfl hs
  | size2M =>
    rw [missingTables_of_pd hp, missingBelow_of_three rfl, missingBelow_of_three rfl]
    simp only [List.cons_append, List.nil_append]
    omega
  | size1G =>
    rw [missingTables_of_pdpt hp, missingBelow_of_two rfl, missingBelow_of_two rfl]
    simp only [List.cons_append, List.nil_append]
    have hmono : ∀ j, missing m' cr3 [index w 39, index w 30, j] ≤ missing m cr3 [index w 39, index w 30, j] :=
      fun j => missing_mono fun n hn => hkeep _ n ⟨by simp, by simpa using hw⟩ hn
    have hsum : ∑ j, missing m' cr3 [index w 39, index w 30, j] + missing m cr3 [index w 39, index w 30, index w 21] ≤
        ∑ j, missing m cr3 [index w 39, index w 30, j] := by
      rw [← Finset.add_sum_erase _ _ (Finset.mem_univ (index w 21)), hpt', Nat.zero_add,
        ← Finset.sum_erase_add (Finset.univ : Finset (Fin 512)) (fun j => missing m cr3 [index w 39, index w 30, j])
          (Finset.mem_univ (index w 21))]
      exact Nat.add_le_add_right (Finset.sum_le_sum fun j _ => hmono j) _
    omega

end Counting

/-! ## Mapping the small pages -/

/-- The flags of the large entry that the small ones get. -/
theorem flagsOk_and (e : Nat) : FlagsOk (e &&& 0x3E) := by
  have hmask : e &&& 0x3E = e / 2 ^ 1 % 2 ^ 5 * 2 ^ 1 := land_shifted_mask e 1 5
  rw [hmask]
  constructor <;> omega

/-- A frame address with the present bit and flags is a sum. -/
theorem entry_eq_add {a flags : Nat} (ha : a % 4096 = 0) (hflags : FlagsOk flags) :
    a ||| pagingFlagPresent ||| flags = a + (flags + 1) := by
  have heven := hflags.even
  have hlow := hflags.low
  have hflag : pagingFlagPresent ||| flags = flags + 1 := by
    rw [Nat.or_comm]
    exact lor_eq_add (i := 1) (by omega) (by decide)
  rw [Nat.or_assoc, hflag]
  exact lor_eq_add (i := 12) (by omega) (by omega)

section Paths

variable {m : Mem} {cr3 v w n shift : Nat} {p q : List (Fin 512)} {i j : Fin 512}

/-- A position at or below the leaf entry. -/
theorem isPrefix_of_below (h : p ++ [i] <+: q ++ [j]) : p <+: q := by
  rcases List.prefix_concat_iff.mp h with heq | hpre
  · obtain ⟨rfl, -⟩ := List.append_inj' heq rfl
    exact List.prefix_rfl
  · exact (List.prefix_append p [i]).trans hpre

/-- The paths of a block lie behind its first slot. -/
theorem LeafSlot.mem_below (h : LeafSlot v shift p i) (hv : index v 39 ≠ 511) (hpq : p <+: q)
    (hq : q.length ≤ 3) : tablePaths.mem q := by
  refine ⟨hq, fun k hk => ?_⟩
  obtain ⟨r, rfl⟩ := hpq
  have hhead : k = index v 39 := by
    cases h <;> simpa using hk.symm
  rw [hhead]
  exact hv

/-- An entry on the way of an address of the block is above the leaf entry, or at or below it. -/
theorem LeafSlot.above_or_below (h : LeafSlot w shift p i) (hq : q ++ [j] <+: indices w) :
    q ++ [j] <+: p ∨ p ++ [i] <+: q ++ [j] := by
  rcases List.prefix_or_prefix_of_prefix hq h.isPrefix with hpre | hpre
  · rcases List.prefix_concat_iff.mp hpre with heq | hpre
    · exact .inr (heq ▸ List.prefix_rfl)
    · exact .inl hpre
  · exact .inr hpre

end Paths

/-- From `s` to `t` the first `k` pages of the block have been mapped, and no page of another block. -/
structure BlockMapped (s t : Kernel) (v shift base flags k : Nat) : Prop where
  small : ∀ w, w / 2 ^ shift = v / 2 ^ shift → NoLargePage t.mem s.cr3 w
  mapped : ∀ w, w / 2 ^ shift = v / 2 ^ shift → w % 2 ^ shift < 4096 * k →
    walk t.mem s.cr3 w = some (base + w % 2 ^ shift / 4096 * 4096 + (flags + 1), 12)
  others : ∀ w, index w 39 ≠ 511 → w / 2 ^ shift ≠ v / 2 ^ shift →
    walk t.mem s.cr3 w = walk s.mem s.cr3 w

/-- One more page. -/
theorem BlockMapped.step {s t t' : Kernel} {v shift base flags k : Nat} {p : List (Fin 512)} {i : Fin 512} {taken : List Nat}
    (hb : BlockMapped s t v shift base flags k) (hslot : LeafSlot v shift p i) (hs : shift ≠ 12)
    (hc : canonical v = true) (hv : index v 39 ≠ 511) (hk : 4096 * k < 2 ^ shift) (hbase : FrameAddr base)
    (hflags : FlagsOk flags) (hct : t.cr3 = s.cr3)
    (hedit : Edited t t' (blockPage v shift k) ((base + 4096 * k) ||| pagingFlagPresent ||| flags) taken) :
    BlockMapped s t' v shift base flags (k + 1) := by
  have hs' := hslot.large hs
  obtain ⟨hblock, -, -⟩ := blockPage_mod (v := v) hs' hk
  have hpage := userPage_blockPage hc hv hs' hk
  have hbasemod := hbase.aligned
  have hc' : t'.cr3 = s.cr3 := hedit.cr3.trans hct
  have hin : ∀ x, x / 2 ^ shift = v / 2 ^ shift → index x 39 ≠ 511 := fun x hx => by
    rw [index_blockPage hs' hx]
    exact hv
  refine ⟨fun x hx => ?_, fun x hx hlt => ?_, fun x hx hne => ?_⟩
  · exact hc' ▸ hedit.noLarge x (hin x hx) (hct.symm ▸ hb.small x hx)
  · have hiff := blockPage_iff hs' hk hx
    by_cases hpagex : x / 4096 = blockPage v shift k / 4096
    · have hself := hedit.walk_self hpage hpagex
      have hbk : (base + 4096 * k) % 4096 = 0 := by omega
      rw [entry_eq_add hbk hflags, if_pos, hc'] at hself
      · rw [hself, hiff.mp hpagex, Nat.mul_comm k]
      · have heven := hflags.even
        simp only [present, decide_eq_true_eq]
        omega
    · have hother := hedit.others x (hin x hx) hpagex
      rw [hc', hct] at hother
      rw [hother]
      exact hb.mapped x hx (by omega)
  · have hpagex : x / 4096 ≠ blockPage v shift k / 4096 := by
      intro heq
      refine hne ?_
      rw [← hblock]
      rcases hs' with rfl | rfl <;> omega
    have hother := hedit.others x hx hpagex
    rw [hc', hct] at hother
    rw [hother]
    exact hb.others x hx hne

/-- From `s`, where the large entry has been cleared, to `t` the first `k` pages of the block
have been mapped. -/
structure Splitting (s t : Kernel) (v shift : Nat) (p : List (Fin 512)) (i : Fin 512)
    (base flags k : Nat) : Prop where
  pageTables : PageTables t.mem t.cr3
  cr3 : t.cr3 = s.cr3
  free : FreeFrames t
  enough : missingBelow t.mem s.cr3 (p ++ [i]) ≤ t.physMmap.freePages.length
  keep : ∀ q n, tablePaths.mem q → tableAt s.mem s.cr3 q = some n → tableAt t.mem s.cr3 q = some n
  small : ∀ w, w / 2 ^ shift = v / 2 ^ shift → NoLargePage t.mem s.cr3 w
  mapped : ∀ w, w / 2 ^ shift = v / 2 ^ shift → w % 2 ^ shift < 4096 * k →
    walk t.mem s.cr3 w = some (base + w % 2 ^ shift / 4096 * 4096 + (flags + 1), 12)
  others : ∀ w, index w 39 ≠ 511 → w / 2 ^ shift ≠ v / 2 ^ shift →
    walk t.mem s.cr3 w = walk s.mem s.cr3 w
  above : ∀ q j, q ++ [j] <+: p → entries t.mem s.cr3 q j =
    (entries s.mem s.cr3 q j).map fun u => if k = 0 then u else u ||| flags
  below : ∀ q j x, p ++ [i] <+: q ++ [j] → q.length ≤ 2 → entries t.mem s.cr3 q j = some x →
    present x = true → ∃ a, FrameAddr a ∧ x = a + (flags + 1)
  off : ∀ q j, tablePaths.mem q → ¬q ++ [j] <+: p → ¬p ++ [i] <+: q ++ [j] →
    entries t.mem s.cr3 q j = entries s.mem s.cr3 q j

section Split

variable {s t t' : Kernel} {v w shift base flags k n : Nat} {p q : List (Fin 512)} {i j : Fin 512}

/-- The entries above the large one have got the flags. -/
theorem Splitting.above_step (hsp : Splitting s t v shift p i base flags k) (hw : LeafSlot w shift p i)
    (hl : LinkEdit (UpperOf w) (LeafOf w) t t' flags) (hn : tableAt t.mem s.cr3 p = some n)
    (hq : q ++ [j] <+: p) :
    entries t'.mem s.cr3 q j = (entries s.mem s.cr3 q j).map fun u => u ||| flags := by
  have hlen := hq.length_le
  have hlen' := (hw.mem (S := fun _ => True) trivial).1
  rw [List.length_append, List.length_singleton] at hlen
  have hupper : UpperOf w q j :=
    upperOf_iff_isPrefix.mpr ⟨hq.trans ((List.prefix_append p [i]).trans hw.isPrefix), by omega⟩
  obtain ⟨b, hb, -, hold⟩ := hl.on q j hupper
  rw [hsp.cr3] at hb hold
  rcases hold with hold | ⟨hnone, -⟩
  · rw [hsp.above q j hq, Option.map_eq_some_iff] at hold
    obtain ⟨u, hu, rfl⟩ := hold
    rw [hb, hu, Option.map_some]
    split_ifs
    · rfl
    · rw [Nat.or_assoc, Nat.or_self]
  · -- the tables above are there
    obtain ⟨a, ha⟩ := tableAt_of_isPrefix hn hq
    rw [ha] at hnone
    cases hnone

/-- A present entry at or below the large one links to a new table. -/
theorem Splitting.below_step (hsp : Splitting s t v shift p i base flags k) (hw : LeafSlot w shift p i)
    (hv : index w 39 ≠ 511) (hl : LinkEdit (UpperOf w) (LeafOf w) t t' flags) (hflags : FlagsOk flags) {x : Nat}
    (hq : p ++ [i] <+: q ++ [j]) (hlen : q.length ≤ 2) (hx : entries t'.mem s.cr3 q j = some x)
    (hpres : present x = true) : ∃ a, FrameAddr a ∧ x = a + (flags + 1) := by
  by_cases hupper : UpperOf w q j
  · obtain ⟨b, hb, hbpres, hold⟩ := hl.on q j hupper
    rw [hsp.cr3] at hb hold
    obtain rfl : x = b ||| flags := Option.some.inj (hx.symm.trans hb)
    rcases hold with hold | ⟨-, a, ha, rfl⟩
    · obtain ⟨a, ha, rfl⟩ := hsp.below q j b hq hlen hold hbpres
      refine ⟨a, ha, ?_⟩
      rw [← entry_eq_add ha.aligned hflags, Nat.or_assoc, Nat.or_self]
    · exact ⟨a, ha, entry_eq_add ha.aligned hflags⟩
  · have hleaf : ¬LeafOf w q j := by
      rintro ⟨rfl, -⟩
      simp at hlen
    rcases hl.off q j (hw.mem_below hv (isPrefix_of_below hq) (by omega)) hupper hleaf with heq | ⟨⟨-, hzero⟩, -⟩
    · rw [hsp.cr3] at heq
      exact hsp.below q j x hq hlen (heq.symm.trans hx) hpres
    · rw [hsp.cr3, hx] at hzero
      rw [Option.some.inj hzero] at hpres
      cases hpres

/-- The other entries stay. -/
theorem Splitting.off_step (hsp : Splitting s t v shift p i base flags k) (hw : LeafSlot w shift p i)
    (hl : LinkEdit (UpperOf w) (LeafOf w) t t' flags) (hn : tableAt t.mem s.cr3 p = some n)
    (hq : tablePaths.mem q) (habove : ¬q ++ [j] <+: p) (hbelow : ¬p ++ [i] <+: q ++ [j]) :
    entries t'.mem s.cr3 q j = entries s.mem s.cr3 q j := by
  have hoff : ∀ {r l}, r ++ [l] = q ++ [j] → ¬r ++ [l] <+: indices w := by
    intro r l heq hpre
    rw [heq] at hpre
    exact (hw.above_or_below hpre).elim habove hbelow
  have hupper : ¬UpperOf w q j := fun hu => hoff rfl (upperOf_iff_isPrefix.mp hu).1
  have hleaf : ¬LeafOf w q j := by
    rintro ⟨rfl, rfl⟩
    exact hoff rfl List.prefix_rfl
  rcases hl.off q j hq hupper hleaf with heq | ⟨⟨hnone, -⟩, r, l, hr, rfl⟩
  · rw [hsp.cr3] at heq
    rw [heq, hsp.off q j hq habove hbelow]
  · -- the tables that are new are at or below the large entry
    rcases hw.above_or_below (upperOf_iff_isPrefix.mp hr).1 with hpre | hpre
    · obtain ⟨a, ha⟩ := tableAt_of_isPrefix hn hpre
      rw [hsp.cr3, entries_of_tableAt ha] at hnone
      cases hnone
    · exact absurd (hpre.trans (List.prefix_append _ _)) hbelow

/-- One more page. -/
theorem Splitting.step (hsp : Splitting s t v shift p i base flags k) (hslot : LeafSlot v shift p i)
    (hs : shift ≠ 12) (hc : canonical v = true) (hv : index v 39 ≠ 511) (hp : tableAt s.mem s.cr3 p = some n)
    (hk : 4096 * k < 2 ^ shift) (hbase : FrameAddr base) (hflags : FlagsOk flags) :
    ∃ t', (mapPage (blockPage v shift k) (base + 4096 * k) flags).Returns t () t' ∧
      Splitting s t' v shift p i base flags (k + 1) := by
  have hs' := hslot.large hs
  have hshift : 2 ^ shift ≤ 2 ^ 30 := Nat.pow_le_pow_right (by decide) hslot.shift_le.2
  obtain ⟨hblock, -, -⟩ := blockPage_mod (v := v) hs' hk
  have hpage := userPage_blockPage hc hv hs' hk
  have hbaselt := hbase.lt
  have hw := hslot.of_same_block hblock
  have hn : tableAt t.mem s.cr3 p = some n := hsp.keep p n (hslot.mem hv) hp
  have hne : ∀ a ∈ (takeFrames (missingTables t.mem t.cr3 (blockPage v shift k)) t.physMmap).1, a ≠ 0 := by
    rw [hsp.cr3]
    exact takeFrames_ne_zero hsp.free.wf ((missingTables_le hw hs hn).trans hsp.enough)
  obtain ⟨t', hret, hmap, ⟨taken, hmapped⟩, hl⟩ := mapPageWith_returns (p := base + 4096 * k) storesWord_writeWord
    hsp.pageTables False.elim hsp.free hpage (by rw [hsp.cr3]; exact hsp.small _ hblock) (by omega)
    hflags.attributeBits False.elim hne
  have hc' : t'.cr3 = s.cr3 := hmapped.cr3.trans hsp.cr3
  have hb : BlockMapped s t' v shift base flags (k + 1) :=
    BlockMapped.step ⟨hsp.small, hsp.mapped, hsp.others⟩ hslot hs hc hv hk hbase hflags hsp.cr3 hmapped.toEdited
  refine ⟨t', hret, ⟨hmapped.pageTables, hc', hmapped.free, ?_, fun q m hq hm => ?_, hb.small, hb.mapped, hb.others,
    fun q j hq => ?_, fun q j x hq hlen hx hpres => ?_, fun q j hq habove hbelow => ?_⟩⟩
  · obtain ⟨a, ha, -⟩ := hmapped.ptAt
    have hcount : missingBelow t'.mem s.cr3 (p ++ [i]) + missingTables t.mem s.cr3 (blockPage v shift k) ≤
        missingBelow t.mem s.cr3 (p ++ [i]) := missingBelow_step hw hs hpage.slot hn
      (fun q m hq hm => hc' ▸ hmapped.keep q m hq (hsp.cr3.symm ▸ hm)) ⟨a, hc' ▸ ha⟩
    obtain ⟨-, hperm⟩ := takeFrames_pages hsp.free.wf hne
    have hlen := hperm.length_eq
    rw [← hmap, List.length_append, takeFrames_length, hsp.cr3] at hlen
    have henough := hsp.enough
    omega
  · exact hc' ▸ hmapped.keep q m hq (hsp.cr3.symm ▸ hsp.keep q m hq hm)
  · rw [hsp.above_step hw hl hn hq]
    simp
  · exact hsp.below_step hw hpage.slot hl hflags hq hlen hx hpres
  · exact hsp.off_step hw hl hn hq habove hbelow

/-- After a large entry has been cleared nothing is present at or below it. -/
theorem not_present_below {m : Mem} {cr3 x : Nat} (hn : tableAt m cr3 p = some n) (hzero : tables m n i = 0)
    (hq : p ++ [i] <+: q ++ [j]) (hx : entries m cr3 q j = some x) : present x = false := by
  rcases List.prefix_concat_iff.mp hq with heq | hpre
  · obtain ⟨rfl, hij⟩ := List.append_inj' heq rfl
    obtain rfl : i = j := by simpa using hij
    rw [entries_of_tableAt hn, hzero] at hx
    rw [← Option.some.inj hx]
    rfl
  · obtain ⟨a, ha, -⟩ := table_of_entries hx
    obtain ⟨b, hb⟩ := tableAt_of_isPrefix ha hpre
    rw [tableAt_concat, hn, Option.bind_some, hzero] at hb
    cases hb

/-- The tables after the large entry has been cleared: all paths are the old ones, and no large page is
left in the block. -/
theorem cleared_tables {m' : Mem} (h : PageTables s.mem s.cr3) (hslot : LeafSlot v shift p i)
    (hs : shift ≠ 12) (hv : index v 39 ≠ 511) (hn : tableAt s.mem s.cr3 p = some n)
    (hsize : pageSize (tables s.mem n i) = true) (hm : tables m' = (tables s.mem).set n i 0) :
    PageTables m' s.cr3 ∧ (∀ q, tablePaths.mem q → tableAt m' s.cr3 q = tableAt s.mem s.cr3 q) ∧
      (∀ q j, tablePaths.mem q → ¬(q = p ∧ j = i) → entries m' s.cr3 q j = entries s.mem s.cr3 q j) ∧
      ∀ w, w / 2 ^ shift = v / 2 ^ shift → NoLargePage m' s.cr3 w := by
  have hp := hslot.mem (S := (· ≠ 511)) hv
  have hold : link (tables s.mem n i) = none := by simp [link, hsize]
  obtain ⟨htree, htab, hent⟩ := entries_set_leafSlot h.tree hv hslot hn (.inr hold) (.inr link_zero) hm
  have hn' : tableAt m' s.cr3 p = some n := (htab p hp).trans hn
  have hzero : tables m' n i = 0 := by rw [hm, Tables.set_apply_self]
  have hne : n ≠ frameOf s.cr3 := by
    refine h.table_ne hp tablePaths.nil_mem hn rfl ?_
    cases hslot <;> simp
  have hwindow : tables m' (frameOf s.cr3) 511 = tables s.mem (frameOf s.cr3) 511 := by
    rw [hm, Tables.set_apply_of_ne (.inl hne.symm)]
  refine ⟨⟨?_, htree⟩, htab, fun q j hq hqj => by rw [hent q j hq, if_neg hqj], fun w hw q j hu x hx hpres => ?_⟩
  · rw [hwindow]
    exact h.selfMap
  · rcases (hslot.of_same_block hw).above_or_below (upperOf_iff_isPrefix.mp hu).1 with hpre | hpre
    · -- the entries above the large one are links
      obtain ⟨a, ha⟩ := tableAt_of_isPrefix hn' hpre
      obtain ⟨b, hb, rfl⟩ := table_of_entries hx
      exact (link_eq_some.mp (link_of_table hb ha)).2.1
    · rw [not_present_below hn' hzero hpre hx] at hpres
      cases hpres

/-- The state in which the large entry has been cleared. -/
theorem Splitting.start (base flags : Nat) {m' : Mem} (h : PageTables s.mem s.cr3) (hfree : FreeFrames s) (hslot : LeafSlot v shift p i)
    (hs : shift ≠ 12) (hv : index v 39 ≠ 511) (hn : tableAt s.mem s.cr3 p = some n)
    (hsize : pageSize (tables s.mem n i) = true) (hm : tables m' = (tables s.mem).set n i 0)
    (henough : splitTables shift ≤ s.physMmap.freePages.length) :
    (∀ q, tablePaths.mem q → tableAt m' s.cr3 q = tableAt s.mem s.cr3 q) ∧
      (∀ q j, tablePaths.mem q → ¬(q = p ∧ j = i) → entries m' s.cr3 q j = entries s.mem s.cr3 q j) ∧
      Splitting { s with mem := m' } { s with mem := m' } v shift p i base flags 0 := by
  obtain ⟨hpt, htab, hent, hsmall⟩ := cleared_tables h hslot hs hv hn hsize hm
  have hn' : tableAt m' s.cr3 p = some n := (htab p (hslot.mem hv)).trans hn
  have hzero : tables m' n i = 0 := by rw [hm, Tables.set_apply_self]
  refine ⟨htab, hent, ⟨hpt, rfl, ⟨hfree.wf, fun a ha => ?_⟩, (missingBelow_le hslot hs).trans henough, fun _ _ _ hm => hm,
    hsmall, fun w _ hlt => by omega, fun _ _ _ => rfl, fun q j _ => by simp, fun q j x hq _ hx hpres => ?_,
    fun _ _ _ _ _ => rfl⟩⟩
  · obtain ⟨haddr, hnz, hnot⟩ := hfree.good a ha
    refine ⟨haddr, hnz, ?_⟩
    rintro ⟨q, hq, hqa⟩
    exact hnot ⟨q, hq, (htab q hq).symm.trans hqa⟩
  · rw [not_present_below hn' hzero hq hx] at hpres
    cases hpres

/-- All pages of the block. -/
theorem Splitting.run (hsp : Splitting s s v shift p i base flags 0) (hslot : LeafSlot v shift p i)
    (hs : shift ≠ 12) (hc : canonical v = true) (hv : index v 39 ≠ 511) (hp : tableAt s.mem s.cr3 p = some n)
    (hbase : FrameAddr base) (hflags : FlagsOk flags) :
    ∃ t, (splitPage (blockPage v shift 0) base flags (2 ^ shift / 4096)).Returns s () t ∧
      Splitting s t v shift p i base flags (2 ^ shift / 4096) := by
  have hbaselt := hbase.lt
  have hshift : 2 ^ shift ≤ 2 ^ 30 := Nat.pow_le_pow_right (by decide) hslot.shift_le.2
  have hloop : Outcome.wp (fun _ => False) (splitPage (blockPage v shift 0) base flags (2 ^ shift / 4096))
      (fun _ t => Splitting s t v shift p i base flags (0 + 2 ^ shift / 4096)) s := by
    refine Outcome.wp_loop (fun k t => Splitting s t v shift p i base flags k) 0 _ ?_ hsp
    intro k t _ hk ht
    have hk' : 4096 * k < 2 ^ shift := by omega
    obtain ⟨t', hret, ht'⟩ := ht.step hslot hs hc hv hp hk' hbase hflags
    have hpage := (userPage_blockPage hc hv (hslot.large hs) hk').lt
    have hv₀ : blockPage v shift 0 + 0x1000 * k = blockPage v shift k := by
      unfold blockPage
      omega
    rw [hv₀, wrap_of_lt hpage, wrap_of_lt (by omega)]
    exact Outcome.wp_of_returns hret ht'
  rw [Nat.zero_add] at hloop
  obtain ⟨_, t, hret, ht⟩ := Outcome.returns_of_wp hloop fun _ _ _ hf => hf
  exact ⟨t, hret, ht⟩

end Split

/-! ## The call -/

/-- From `s` to `s'` the large page has become small ones, but for the page of `v`. -/
structure Split (s s' : Kernel) (v shift : Nat) (p : List (Fin 512)) (i : Fin 512) (base flags : Nat) :
    Prop where
  page : ∀ w, w / 4096 = v / 4096 → walk s'.mem s'.cr3 w = none
  mapped : ∀ w, w / 2 ^ shift = v / 2 ^ shift → w / 4096 ≠ v / 4096 →
    walk s'.mem s'.cr3 w = some (base + w % 2 ^ shift / 4096 * 4096 + (flags + 1), 12)
  others : ∀ w, index w 39 ≠ 511 → w / 2 ^ shift ≠ v / 2 ^ shift →
    walk s'.mem s'.cr3 w = walk s.mem s.cr3 w
  above : ∀ q j, q ++ [j] <+: p → entries s'.mem s'.cr3 q j =
    (entries s.mem s.cr3 q j).map fun u => u ||| flags
  below : ∀ q j x, p ++ [i] <+: q ++ [j] → q.length ≤ 2 → entries s'.mem s'.cr3 q j = some x →
    present x = true → ∃ a, FrameAddr a ∧ x = a + (flags + 1)
  off : ∀ q j, tablePaths.mem q → ¬q ++ [j] <+: p → ¬p ++ [i] <+: q ++ [j] →
    entries s'.mem s'.cr3 q j = entries s.mem s.cr3 q j

/-- The physical address in an entry, without bits 48 to 51. -/
theorem frameAddr_and (e : Nat) : FrameAddr (e &&& 0xFFFFFFFFF000) := by
  have hmask : e &&& 0xFFFFFFFFF000 = e / 2 ^ 12 % 2 ^ 36 * 2 ^ 12 := land_shifted_mask e 12 36
  rw [hmask]
  constructor <;> omega

section Call

variable {s : Kernel} {v e shift : Nat} {p : List (Fin 512)} {i : Fin 512} {n : Nat}

/-- `unmap_page_fix_size` on a page of a large page, with frames for the tables. -/
theorem unmapPageFixSize_split (h : PageTables s.mem s.cr3) (hfree : FreeFrames s) (hc : canonical v = true)
    (hv : index v 39 ≠ 511) (hslot : LeafSlot v shift p i) (hs : shift ≠ 12) (hn : tableAt s.mem s.cr3 p = some n)
    (he : tables s.mem n i = e) (hsize : pageSize e = true)
    (henough : splitTables shift ≤ s.physMmap.freePages.length) :
    ∃ s', (unmapPageFixSize v).Returns s () s' ∧
      Split s s' v shift p i (e &&& 0xFFFFFFFFF000) (e &&& 0x3E) := by
  subst he
  have hs' := hslot.large hs
  have hflags := flagsOk_and (tables s.mem n i)
  have hbase := frameAddr_and (tables s.mem n i)
  have hp := hslot.mem (S := (· ≠ 511)) hv
  have hpage : UserPage (v / 4096 * 4096) := by
    have hsame : v / 4096 * 4096 / 4096 = v / 4096 := by omega
    refine ⟨?_, by omega, ?_⟩
    · rw [canonical_of_same_page hsame, hc]
    · rw [index_of_same_page hsame (by decide)]
      exact hv
  have hlt : v < 2 ^ 64 := by
    have := hpage.lt
    omega
  obtain ⟨m', hm, hcall⟩ := unmapPageFixSize_returns h hv hslot hs hlt hn hsize
  obtain ⟨htab, hent, hstart⟩ := Splitting.start (tables s.mem n i &&& 0xFFFFFFFFF000)
    (tables s.mem n i &&& 0x3E) h hfree hslot hs hv hn hsize hm henough
  have hn' : tableAt m' s.cr3 p = some n := (htab p hp).trans hn
  obtain ⟨t, hsplit, ht⟩ := hstart.run hslot hs hc hv hn' hbase hflags
  have hct : t.cr3 = s.cr3 := ht.cr3
  generalize tables s.mem n i &&& 0x3E = flags at *
  generalize tables s.mem n i &&& 0xFFFFFFFFF000 = base at *
  -- every page of the block is mapped now
  have hall : ∀ w, w / 2 ^ shift = v / 2 ^ shift →
      walk t.mem t.cr3 w = some (base + w % 2 ^ shift / 4096 * 4096 + (flags + 1), 12) := by
    intro w hw
    rw [hct]
    refine ht.mapped w hw ?_
    rcases hs' with rfl | rfl <;> omega
  have hblock : v / 4096 * 4096 / 2 ^ shift = v / 2 ^ shift := by
    rcases hs' with rfl | rfl <;> omega
  obtain ⟨k, hk, -⟩ := ptAt_of_walk (hall _ hblock)
  obtain ⟨s', hunmap, hedit, -, hl⟩ :=
    unmapPageWith_spec 0 storesWord_writeWord ht.pageTables False.elim hpage hk
  have hunmap' : (unmapPage v).Returns t () s' := by
    rw [unmapPage_page]
    exact hunmap
  have hcr3 : s'.cr3 = s.cr3 := hedit.cr3.trans hct
  have hsame : ∀ w, w / 4096 = v / 4096 * 4096 / 4096 ↔ w / 4096 = v / 4096 := by
    intro w
    omega
  have hkept : ∀ q j, tablePaths.mem q → ¬LeafOf (v / 4096 * 4096) q j →
      entries s'.mem s'.cr3 q j = entries t.mem s.cr3 q j := by
    intro q j hq hleaf
    rw [hcr3]
    have hoff := hl.off q j hq not_false hleaf
    rw [hct] at hoff
    exact hoff.resolve_right fun ⟨_, _, _, hf, _⟩ => hf
  refine ⟨s', hcall t s' hsplit hunmap', ⟨fun w hw => ?_, fun w hw hne => ?_, fun w hw hne => ?_, fun q j hq => ?_,
    fun q j x hq hlen hx hpres => ?_, fun q j hq habove hbelow => ?_⟩⟩
  · exact hedit.walk_self hpage ((hsame w).mpr hw)
  · have hslot' : index w 39 ≠ 511 := by
      rw [index_blockPage hs' hw]
      exact hv
    rw [hedit.others w hslot' (fun heq => hne ((hsame w).mp heq)), hall w hw]
  · have hne' : w / 4096 ≠ v / 4096 * 4096 / 4096 := by
      intro heq
      refine hne ?_
      rcases hs' with rfl | rfl <;> omega
    rw [hedit.others w hw hne', hct]
    refine (ht.others w hw hne).trans ?_
    exact walk_off_leafSlot hc hslot hent hw hne
  · have hmem : tablePaths.mem q := tablePaths.mem_of_prefix ((List.prefix_append q [j]).trans hq) hp
    have hlen := hq.length_le
    rw [List.length_append, List.length_singleton] at hlen
    have hleaf : ¬LeafOf (v / 4096 * 4096) q j := by
      rintro ⟨rfl, -⟩
      have := hp.1
      simp only [List.length_cons, List.length_nil] at hlen
      omega
    have hnot : ¬(q = p ∧ j = i) := by
      rintro ⟨rfl, -⟩
      omega
    have hcount : 2 ^ shift / 4096 ≠ 0 := by rcases hs' with rfl | rfl <;> decide
    rw [hkept q j hmem hleaf, ht.above q j hq]
    simp only [hcount, if_false]
    show (entries m' s.cr3 q j).map _ = _
    rw [hent q j hmem hnot]
  · have hmem := hslot.mem_below hv (isPrefix_of_below hq) (q := q) (by omega)
    have hleaf : ¬LeafOf (v / 4096 * 4096) q j := by
      rintro ⟨rfl, -⟩
      simp at hlen
    rw [hkept q j hmem hleaf] at hx
    exact ht.below q j x hq hlen hx hpres
  · have hleaf : ¬LeafOf (v / 4096 * 4096) q j := by
      rintro ⟨rfl, rfl⟩
      exact hbelow (hslot.of_same_block hblock).isPrefix
    have hnot : ¬(q = p ∧ j = i) := by
      rintro ⟨rfl, rfl⟩
      exact hbelow List.prefix_rfl
    rw [hkept q j hq hleaf, ht.off q j hq habove hbelow]
    exact hent q j hq hnot

end Call

/-! ## Views before and after -/

section Views

variable {s s' : Kernel} {v w e x shift base flags n : Nat} {p : List (Fin 512)} {i : Fin 512}

/-- The entries above the large one. -/
abbrev upperEntries (m : Mem) (cr3 : Nat) (p : List (Fin 512)) : List Nat :=
  Tables.trail link (tables m) (frameOf cr3) p

theorem mem_upperEntries {m : Mem} {cr3 : Nat} :
    x ∈ upperEntries m cr3 p ↔ ∃ q j, q ++ [j] <+: p ∧ entries m cr3 q j = some x :=
  Tables.mem_trail

/-- The walk of a large page reads the entries above its entry, and the entry. -/
theorem trail_of_large {m : Mem} {cr3 : Nat} (h : LeafSlot w shift p i) (hn : tableAt m cr3 p = some n)
    (hl : link (tables m n i) = none) : trail m cr3 w = upperEntries m cr3 p ++ [tables m n i] := by
  obtain ⟨r, hr⟩ := h.isPrefix
  rw [trail, ← hr, List.append_assoc, List.singleton_append]
  exact Tables.trail_append_of_unlinked hn hl r

/-- What the hardware makes of an address of the block before the call. -/
theorem view_of_large (hc : canonical w = true) (h : LeafSlot w shift p i)
    (hn : tableAt s.mem s.cr3 p = some n) (he : tables s.mem n i = e) (hpres : present e = true)
    (hsize : pageSize e = true) :
    view s.mem s.cr3 w = some (leafAddr (e, shift) w,
      attributes (upperEntries s.mem s.cr3 p ++ [e]) e) := by
  subst he
  have hl : link (tables s.mem n i) = none := by simp [link, hsize]
  rw [view, walk_of_leafSlot hc h hn hpres (.inr hsize), trail_of_large h hn hl, Option.map_some]

/-- The walk of a small page ends in a page table. -/
theorem trail_of_small {m : Mem} {cr3 : Nat} (hwalk : walk m cr3 w = some (e, 12)) :
    e ∈ trail m cr3 w ∧ ∀ q j, q ++ [j] <+: indices w → ∀ x, entries m cr3 q j = some x →
      x = e ∨ q.length ≤ 2 ∧ present x = true := by
  obtain ⟨n, hn, he⟩ := ptAt_of_walk hwalk
  have hleaf : entries m cr3 [index w 39, index w 30, index w 21] (index w 12) = some e := by
    rw [entries_of_tableAt hn, he]
  refine ⟨mem_trail_iff.mpr ⟨_, _, List.prefix_rfl, hleaf⟩, fun q j hq x hx => ?_⟩
  rcases List.prefix_concat_iff.mp (show q ++ [j] <+: [index w 39, index w 30, index w 21] ++ [index w 12] from hq)
    with heq | hpre
  · obtain ⟨rfl, hj⟩ := List.append_inj' heq rfl
    obtain rfl : j = index w 12 := by simpa using hj
    exact .inl (Option.some.inj (hx.symm.trans hleaf))
  · have hlen := hpre.length_le
    rw [List.length_append, List.length_singleton] at hlen
    obtain ⟨a, ha⟩ := tableAt_of_isPrefix hn hpre
    obtain ⟨b, hb, rfl⟩ := table_of_entries hx
    simp only [List.length_cons, List.length_nil] at hlen
    exact .inr ⟨by omega, (link_eq_some.mp (link_of_table hb ha)).1⟩

/-- What the walk of a small page reads after the call. -/
theorem Split.mem_trail (hsp : Split s s' v shift p i base flags) (hslot : LeafSlot w shift p i)
    (hbase : FrameAddr base) (hs : shift = 21 ∨ shift = 30)
    (hwalk : walk s'.mem s'.cr3 w = some (base + w % 2 ^ shift / 4096 * 4096 + (flags + 1), 12))
    (hx : x ∈ trail s'.mem s'.cr3 w) :
    (∃ u ∈ upperEntries s.mem s.cr3 p, x = u ||| flags) ∨
      ∃ a, a % 4096 = 0 ∧ a < 2 ^ 49 ∧ x = a + (flags + 1) := by
  obtain ⟨q, j, hq, hx⟩ := mem_trail_iff.mp hx
  rcases hslot.above_or_below hq with hpre | hpre
  · rw [hsp.above q j hpre, Option.map_eq_some_iff] at hx
    obtain ⟨u, hu, rfl⟩ := hx
    exact .inl ⟨u, mem_upperEntries.mpr ⟨q, j, hpre, hu⟩, rfl⟩
  · rcases (trail_of_small hwalk).2 q j hq x hx with rfl | ⟨hlen, hpres⟩
    · have ha := hbase.aligned
      have hlt := hbase.lt
      refine .inr ⟨_, ?_, ?_, rfl⟩ <;> rcases hs with rfl | rfl <;> omega
    · obtain ⟨a, ha, rfl⟩ := hsp.below q j x hpre hlen hx hpres
      have := ha.lt
      exact .inr ⟨a, ha.aligned, by omega, rfl⟩

/-- Bits of an entry with a frame address and flags. -/
theorem attributes_of_sum {a : Nat} (ha : a % 4096 = 0) (hlt : a < 2 ^ 49) (hflags : FlagsOk flags) :
    readWrite (a + (flags + 1)) = readWrite flags ∧ userSupervisor (a + (flags + 1)) = userSupervisor flags ∧
      writeThrough (a + (flags + 1)) = writeThrough flags ∧
      cacheDisable (a + (flags + 1)) = cacheDisable flags ∧ executeDisable (a + (flags + 1)) = false := by
  have heven := hflags.even
  have hlow := hflags.low
  have hhigh : (a + (flags + 1)) / 2 ^ 63 = 0 := Nat.div_eq_of_lt (by omega)
  refine ⟨?_, ?_, ?_, ?_, by rw [executeDisable, hhigh]; rfl⟩
  all_goals
    rw [Bool.eq_iff_iff]
    simp only [readWrite, userSupervisor, writeThrough, cacheDisable, decide_eq_true_eq]
    omega

theorem executeDisable_flags (hflags : FlagsOk flags) : executeDisable flags = false := by
  have hlow := hflags.low
  have hhigh : flags / 2 ^ 63 = 0 := Nat.div_eq_of_lt (by omega)
  rw [executeDisable, hhigh]
  rfl

/-- A bit that every entry must have set is that of the flags. -/
theorem Split.all_trail {f : Nat → Bool} (hsp : Split s s' v shift p i base flags) (hslot : LeafSlot w shift p i)
    (hbase : FrameAddr base) (hs : shift = 21 ∨ shift = 30)
    (hwalk : walk s'.mem s'.cr3 w = some (base + w % 2 ^ shift / 4096 * 4096 + (flags + 1), 12))
    (hor : ∀ a b, f (a ||| b) = (f a || f b))
    (hsum : ∀ a, a % 4096 = 0 → a < 2 ^ 49 → f (a + (flags + 1)) = f flags) :
    (trail s'.mem s'.cr3 w).all f = f flags := by
  have ha := hbase.aligned
  have hlt := hbase.lt
  rw [Bool.eq_iff_iff, List.all_eq_true]
  constructor
  · intro hall
    rw [← hsum (base + w % 2 ^ shift / 4096 * 4096) (by omega) (by rcases hs with rfl | rfl <;> omega)]
    exact hall _ (trail_of_small hwalk).1
  · intro hf x hx
    rcases hsp.mem_trail hslot hbase hs hwalk hx with ⟨u, -, rfl⟩ | ⟨a, ha, hlt, rfl⟩
    · rw [hor, hf, Bool.or_true]
    · rw [hsum a ha hlt, hf]

/-- Execution is disabled where an entry above the large one disables it. -/
theorem Split.any_trail (hsp : Split s s' v shift p i base flags) (hslot : LeafSlot w shift p i)
    (hbase : FrameAddr base) (hs : shift = 21 ∨ shift = 30) (hflags : FlagsOk flags)
    (hwalk : walk s'.mem s'.cr3 w = some (base + w % 2 ^ shift / 4096 * 4096 + (flags + 1), 12)) :
    (trail s'.mem s'.cr3 w).any executeDisable = (upperEntries s.mem s.cr3 p).any executeDisable := by
  have hlow := executeDisable_flags hflags
  rw [Bool.eq_iff_iff, List.any_eq_true, List.any_eq_true]
  constructor
  · rintro ⟨x, hx, hxd⟩
    rcases hsp.mem_trail hslot hbase hs hwalk hx with ⟨u, hu, rfl⟩ | ⟨a, ha, hlt, rfl⟩
    · rw [executeDisable_or, hlow, Bool.or_false] at hxd
      exact ⟨u, hu, hxd⟩
    · rw [(attributes_of_sum ha hlt hflags).2.2.2.2] at hxd
      cases hxd
  · rintro ⟨u, hu, hxd⟩
    obtain ⟨q, j, hq, hu⟩ := mem_upperEntries.mp hu
    refine ⟨u ||| flags, mem_trail_iff.mpr ⟨q, j, ?_, ?_⟩, ?_⟩
    · exact hq.trans ((List.prefix_append p [i]).trans hslot.isPrefix)
    · rw [hsp.above q j hq, hu, Option.map_some]
    · rw [executeDisable_or, hxd, Bool.true_or]

/-- What the hardware makes of an address of the block after the call. -/
theorem Split.view_of_small (hsp : Split s s' v shift p i base flags) (hslot : LeafSlot w shift p i)
    (hbase : FrameAddr base) (hs : shift = 21 ∨ shift = 30) (hflags : FlagsOk flags)
    (hw : w / 2 ^ shift = v / 2 ^ shift) (hne : w / 4096 ≠ v / 4096) :
    view s'.mem s'.cr3 w = some (base + w % 2 ^ shift, ⟨readWrite flags, userSupervisor flags,
      writeThrough flags, cacheDisable flags, (upperEntries s.mem s.cr3 p).any executeDisable⟩) := by
  have hwalk := hsp.mapped w hw hne
  have ha := hbase.aligned
  have hlt := hbase.lt
  have hlow := hflags.low
  have haddr : leafAddr (base + w % 2 ^ shift / 4096 * 4096 + (flags + 1), 12) w = base + w % 2 ^ shift := by
    rw [leafAddr_small]
    unfold frameOf
    rcases hs with rfl | rfl <;> omega
  obtain ⟨-, -, hwt, hcd, -⟩ := attributes_of_sum (a := base + w % 2 ^ shift / 4096 * 4096) (by omega)
    (by rcases hs with rfl | rfl <;> omega) hflags
  rw [view, hwalk, Option.map_some, haddr, attributes]
  rw [hsp.all_trail hslot hbase hs hwalk readWrite_or fun a ha hlt => (attributes_of_sum ha hlt hflags).1]
  rw [hsp.all_trail hslot hbase hs hwalk userSupervisor_or fun a ha hlt => (attributes_of_sum ha hlt hflags).2.1]
  rw [hsp.any_trail hslot hbase hs hflags hwalk, hwt, hcd]

end Views

/-! ## What a split keeps -/

/-- The page of `v` is not present, every other page of the large page has the view it had, and
so has every page outside the large page and the window slot. -/
structure SplitKeeps (s s' : Kernel) (v shift : Nat) : Prop where
  page : ∀ w, w / 4096 = v / 4096 → view s'.mem s'.cr3 w = none
  block : ∀ w, w / 2 ^ shift = v / 2 ^ shift → w / 4096 ≠ v / 4096 →
    view s'.mem s'.cr3 w = view s.mem s.cr3 w
  others : ∀ w, index w 39 ≠ 511 → w / 2 ^ shift ≠ v / 2 ^ shift →
    view s'.mem s'.cr3 w = view s.mem s.cr3 w

/-- Small pages can have what the large entry says below the entries `upper`: bit 12, which
selects a memory type there, is clear; the address is below `2 ^ 48`; the rights that the large
entry has are those of the entries above; and if it disables execution, one above does. -/
structure FitsSmall (e : Nat) (upper : List Nat) : Prop where
  pat : e / 2 ^ 12 % 2 = 0
  address : e / 2 ^ 48 % 16 = 0
  readWrite : readWrite e = true → ∀ u ∈ upper, readWrite u = true
  userSupervisor : userSupervisor e = true → ∀ u ∈ upper, userSupervisor u = true
  executeDisable : executeDisable e = true → ∃ u ∈ upper, executeDisable u = true

section Fits

variable {e w shift : Nat} {upper : List Nat}

/-- The flags of the small pages. -/
theorem attributes_and (e : Nat) : readWrite (e &&& 0x3E) = readWrite e ∧
    userSupervisor (e &&& 0x3E) = userSupervisor e ∧ writeThrough (e &&& 0x3E) = writeThrough e ∧
    cacheDisable (e &&& 0x3E) = cacheDisable e := by
  have hmask : e &&& 0x3E = e / 2 ^ 1 % 2 ^ 5 * 2 ^ 1 := land_shifted_mask e 1 5
  rw [hmask]
  refine ⟨?_, ?_, ?_, ?_⟩
  all_goals
    rw [Bool.eq_iff_iff]
    simp only [readWrite, userSupervisor, writeThrough, cacheDisable, decide_eq_true_eq]
    omega

/-- The address of the small pages. -/
theorem leafAddr_eq_iff (hs : shift = 21 ∨ shift = 30) (hreserved : e / 2 ^ 13 % 2 ^ (shift - 13) = 0) :
    (e &&& 0xFFFFFFFFF000) + w % 2 ^ shift = leafAddr (e, shift) w ↔
      e / 2 ^ 12 % 2 = 0 ∧ e / 2 ^ 48 % 16 = 0 := by
  have hmask : e &&& 0xFFFFFFFFF000 = e / 2 ^ 12 % 2 ^ 36 * 2 ^ 12 := land_shifted_mask e 12 36
  rw [hmask]
  show _ = e / 2 ^ shift % 2 ^ (52 - shift) * 2 ^ shift + w % 2 ^ shift ↔ _
  rcases hs with rfl | rfl <;> omega

/-- The attributes of the small pages. -/
theorem attributes_eq_iff :
    (⟨readWrite e, userSupervisor e, writeThrough e, cacheDisable e, upper.any executeDisable⟩ : Attributes) =
      attributes (upper ++ [e]) e ↔
    (readWrite e = true → ∀ u ∈ upper, readWrite u = true) ∧
      (userSupervisor e = true → ∀ u ∈ upper, userSupervisor u = true) ∧
      (executeDisable e = true → ∃ u ∈ upper, executeDisable u = true) := by
  have hall : ∀ f : Nat → Bool, f e = (upper ++ [e]).all f ↔ (f e = true → ∀ u ∈ upper, f u = true) := by
    intro f
    rw [List.all_append, List.all_cons, List.all_nil, Bool.and_true, ← List.all_eq_true]
    cases f e <;> simp
  have hany : ∀ f : Nat → Bool, upper.any f = (upper ++ [e]).any f ↔
      (f e = true → ∃ u ∈ upper, f u = true) := by
    intro f
    rw [List.any_append, List.any_cons, List.any_nil, Bool.or_false, ← List.any_eq_true]
    cases f e <;> simp
  simp only [attributes, Attributes.mk.injEq, true_and]
  rw [hall, hall, hany]

end Fits

section Keeps

variable {s s' : Kernel} {v w e shift n : Nat} {p : List (Fin 512)} {i : Fin 512}

/-- If one other page of the block keeps its view, the large entry fits. -/
theorem Split.fitsSmall (hsp : Split s s' v shift p i (e &&& 0xFFFFFFFFF000) (e &&& 0x3E))
    (hc : canonical v = true) (hslot : LeafSlot v shift p i) (hs : shift ≠ 12)
    (hreserved : e / 2 ^ 13 % 2 ^ (shift - 13) = 0) (hn : tableAt s.mem s.cr3 p = some n)
    (he : tables s.mem n i = e) (hpres : present e = true) (hsize : pageSize e = true)
    (hw : w / 2 ^ shift = v / 2 ^ shift) (hne : w / 4096 ≠ v / 4096) :
    view s'.mem s'.cr3 w = view s.mem s.cr3 w ↔ FitsSmall e (upperEntries s.mem s.cr3 p) := by
  have hs' := hslot.large hs
  have hcw : canonical w = true := by
    rw [canonical_of_same_block (by omega) hw, hc]
  have hslotw := hslot.of_same_block hw
  obtain ⟨hrw, hus, hwt, hcd⟩ := attributes_and e
  rw [hsp.view_of_small hslotw (frameAddr_and e) hs' (flagsOk_and e) hw hne,
    view_of_large hcw hslotw hn he hpres hsize, Option.some.injEq, Prod.mk.injEq, hrw, hus, hwt, hcd,
    leafAddr_eq_iff hs' hreserved, attributes_eq_iff]
  constructor
  · rintro ⟨⟨hpat, haddr⟩, hrw, hus, hxd⟩
    exact ⟨hpat, haddr, hrw, hus, hxd⟩
  · rintro ⟨hpat, haddr, hrw, hus, hxd⟩
    exact ⟨⟨hpat, haddr⟩, hrw, hus, hxd⟩

/-- The entries above the large one keep the bits that count. -/
theorem FitsSmall.bit {upper : List Nat} {u : Nat} (h : FitsSmall e upper) (hu : u ∈ upper)
    {f : Nat → Bool} (hf : f = Paging.readWrite ∨ f = Paging.userSupervisor ∨ f = Paging.executeDisable) :
    f (u ||| (e &&& 0x3E)) = f u := by
  obtain ⟨hrw, hus, -, -⟩ := attributes_and e
  rcases hf with rfl | rfl | rfl
  · rw [readWrite_or, hrw]
    cases hbit : Paging.readWrite e with
    | false => rw [Bool.or_false]
    | true => rw [h.readWrite hbit u hu, Bool.true_or]
  · rw [userSupervisor_or, hus]
    cases hbit : Paging.userSupervisor e with
    | false => rw [Bool.or_false]
    | true => rw [h.userSupervisor hbit u hu, Bool.true_or]
  · rw [executeDisable_or, executeDisable_flags (flagsOk_and e), Bool.or_false]

/-- When the large entry fits, the call keeps the views of all other pages. -/
theorem Split.keeps (hsp : Split s s' v shift p i (e &&& 0xFFFFFFFFF000) (e &&& 0x3E))
    (hc : canonical v = true) (hslot : LeafSlot v shift p i) (hs : shift ≠ 12)
    (hreserved : e / 2 ^ 13 % 2 ^ (shift - 13) = 0) (hn : tableAt s.mem s.cr3 p = some n)
    (he : tables s.mem n i = e) (hpres : present e = true) (hsize : pageSize e = true)
    (hfits : FitsSmall e (upperEntries s.mem s.cr3 p)) : SplitKeeps s s' v shift where
  page w hw := by
    unfold view
    rw [hsp.page w hw, Option.map_none]
  block w hw hne := (hsp.fitsSmall hc hslot hs hreserved hn he hpres hsize hw hne).mpr hfits
  others w hw hne := by
    by_cases hcw : canonical w = true
    · refine view_congr (hsp.others w hw hne) fun f hf q j hq => ?_
      by_cases habove : q ++ [j] <+: p
      · rw [hsp.above q j habove]
        cases hu : entries s.mem s.cr3 q j with
        | none => rfl
        | some u =>
          have hmem : u ∈ upperEntries s.mem s.cr3 p := mem_upperEntries.mpr ⟨q, j, habove, hu⟩
          rw [Option.map_some, Option.map_some, hfits.bit hmem hf, Option.map_some]
      · have hbelow : ¬p ++ [i] <+: q ++ [j] := fun hpre => hne (hslot.same_block hc hcw (hpre.trans hq))
        rw [hsp.off q j (mem_of_prefix_indices hw hq) habove hbelow]
    · unfold view walk
      rw [if_neg hcw, if_neg hcw, Option.map_none, Option.map_none]

/-- **Splitting a large page.** In every state with a tree of tables and free frames for the new
tables, for every page of a present large page outside the window slot: the call returns with
that page not present and all other pages of the large page, and all pages outside it, as they
were, if and only if the large entry fits into small ones. -/
theorem unmapPageFixSize_iff (h : PageTables s.mem s.cr3) (hfree : FreeFrames s) (hv : index v 39 ≠ 511)
    (hwalk : walk s.mem s.cr3 v = some (e, shift)) (hs : shift ≠ 12)
    (hreserved : e / 2 ^ 13 % 2 ^ (shift - 13) = 0)
    (henough : splitTables shift ≤ s.physMmap.freePages.length) :
    (∃ s', (unmapPageFixSize v).Returns s () s' ∧ SplitKeeps s s' v shift) ↔
      FitsSmall e (trail s.mem s.cr3 v).dropLast := by
  obtain ⟨hc, p, i, n, hslot, hn, he, hpres, hsize⟩ := leafSlot_of_walk hwalk
  replace hsize := hsize.resolve_left hs
  have hs' := hslot.large hs
  have hl : link (tables s.mem n i) = none := by simp [link, he, hsize]
  rw [trail_of_large hslot hn hl, List.dropLast_concat]
  obtain ⟨s', hret, hsp⟩ := unmapPageFixSize_split h hfree hc hv hslot hs hn he hsize henough
  constructor
  · rintro ⟨s'', hret', hkeeps⟩
    obtain ⟨-, rfl⟩ := hret.det hret'
    -- the first page of the block, or the second
    obtain ⟨w, hw, hne⟩ : ∃ w, w / 2 ^ shift = v / 2 ^ shift ∧ w / 4096 ≠ v / 4096 := by
      by_cases hfirst : v / 4096 = blockPage v shift 0 / 4096
      · refine ⟨blockPage v shift 1, (blockPage_mod hs' ?_).1, ?_⟩
        · rcases hs' with rfl | rfl <;> decide
        · unfold blockPage at hfirst ⊢
          omega
      · refine ⟨blockPage v shift 0, (blockPage_mod hs' ?_).1, fun heq => hfirst heq.symm⟩
        exact Nat.two_pow_pos shift
    exact (hsp.fitsSmall hc hslot hs hreserved hn he hpres hsize hw hne).mp (hkeeps.block w hw hne)
  · intro hfits
    exact ⟨s', hret, hsp.keeps hc hslot hs hreserved hn he hpres hsize hfits⟩

end Keeps

/-! ### A large page below two tables -/

/-- The kernel `windowOnly` with a PDPT in frame 2 and a PD in frame 3, whose entry 2 is `e`. -/
def withLargePage (e : Nat) : Kernel :=
  { windowOnly with
    mem := ((windowOnly.mem.store64 (4096 * 1 + 8 * (0 : Fin 512)) 0x2003).store64
      (4096 * 2 + 8 * (0 : Fin 512)) 0x3003).store64 (4096 * 3 + 8 * (2 : Fin 512)) e }

/-- Zeroing an empty table changes nothing. -/
theorem clear_of_empty {T : Tables Nat (Fin 512) Nat} {f : Nat} (hT : ∀ j, T f j = 0) : T.clear f 0 = T := by
  funext k j
  by_cases hk : k = f
  · rw [hk, Tables.clear_apply_self, hT]
  · rw [Tables.clear_apply_of_ne hk]

/-- The tables of `withLargePage`, before the large page. -/
def twoTables : Mem :=
  (windowOnly.mem.store64 (4096 * 1 + 8 * (0 : Fin 512)) 0x2003).store64 (4096 * 2 + 8 * (0 : Fin 512)) 0x3003

/-- Two tables, in frames that were empty. -/
theorem grown_twoTables : Grown windowOnly.cr3 windowOnly.mem twoTables [2, 3] ∧
    tableAt twoTables windowOnly.cr3 [0, 0] = some 3 ∧
    tables twoTables = ((tables windowOnly.mem).set 1 0 0x2003).set 2 0 0x3003 := by
  have hm₁ := tables_store64 windowOnly.mem 1 0 (e := 0x2003) (by decide)
  have hm₂ := tables_store64 (windowOnly.mem.store64 (4096 * 1 + 8 * (0 : Fin 512)) 0x2003) 2 0 (e := 0x3003)
    (by decide)
  rw [← twoTables] at hm₂
  generalize windowOnly.mem.store64 (4096 * 1 + 8 * (0 : Fin 512)) 0x2003 = m₁ at hm₁ hm₂
  have hzero : ∀ k j, k ≠ 1 → tables windowOnly.mem k j = 0 := fun k j hk => by
    rw [tables_windowOnly, Tables.set_apply_of_ne (.inl hk)]
  have hzero₁ : ∀ k j, k ≠ 1 → tables m₁ k j = 0 := fun k j hk => by
    rw [hm₁, Tables.set_apply_of_ne (.inl hk), hzero k j hk]
  have habs : present (tables windowOnly.mem 1 0) = false := by
    rw [tables_windowOnly]
    decide
  have habs₁ : present (tables m₁ 2 0) = false := by
    rw [hzero₁ 2 0 (by decide)]
    rfl
  obtain ⟨hg₁, hn₁⟩ := Grown.of_fresh (p := []) (i := 0) (n := 1) (f := 2) (e := 0x2003)
    pageTables_windowOnly ⟨by decide, by simp⟩ rfl habs (by decide)
    (fun h => absurd (isTable_windowOnly h) (by decide))
    (by rw [hm₁, clear_of_empty fun j => hzero 2 j (by decide)])
  obtain ⟨hg₂, hn₂⟩ := Grown.of_fresh (p := [0]) (i := 0) (n := 2) (f := 3) (e := 0x3003)
    hg₁.pageTables ⟨by decide, by simp⟩ hn₁ habs₁ (by decide)
    (fun h => (hg₁.reach 3 h).elim (fun h => absurd (isTable_windowOnly h) (by decide)) (by decide))
    (by rw [hm₂, clear_of_empty fun j => hzero₁ 3 j (by decide)])
  exact ⟨hg₁.trans hg₂, hn₂, by rw [hm₂, hm₁]⟩

/-- A large page in one of the entries of the PD. -/
theorem largePage_twoTables {m : Mem} {i : Fin 512} {v e : Nat} (hm : tables m = (tables twoTables).set 3 i e)
    (hc : canonical v = true) (hv : index v 39 ≠ 511) (hslot : LeafSlot v 21 [0, 0] i) (hpres : present e = true)
    (hsize : pageSize e = true) :
    PageTables m windowOnly.cr3 ∧ (∀ n, IsTable m windowOnly.cr3 n → n = 1 ∨ n = 2 ∨ n = 3) ∧
      walk m windowOnly.cr3 v = some (e, 21) ∧ tableAt m windowOnly.cr3 [0, 0] = some 3 ∧ tables m 3 i = e := by
  obtain ⟨hg, hn, htab⟩ := grown_twoTables
  have hold : link (tables twoTables 3 i) = none := by
    rw [htab, Tables.set_apply_of_ne (.inl (by decide)), Tables.set_apply_of_ne (.inl (by decide)),
      tables_windowOnly, Tables.set_apply_of_ne (.inl (by decide)), link_zero]
  have hnew : link e = none := by simp [link, hsize]
  obtain ⟨htree, hpaths, -⟩ := entries_set_leafSlot hg.tree hv hslot hn (.inr hold) (.inr hnew) hm
  have hn' := (hpaths _ (hslot.mem hv)).trans hn
  have hself : tables m 3 i = e := by rw [hm, Tables.set_apply_self]
  refine ⟨⟨?_, htree⟩, fun n hn => ?_, ?_, hn', hself⟩
  · rw [hm, Tables.set_apply_of_ne (.inl (by decide))]
    exact hg.selfMap
  · obtain ⟨q, hq, hqn⟩ := hn
    rcases hg.reach _ ⟨q, hq, (hpaths q hq).symm.trans hqn⟩ with ht | ht
    · exact .inl (isTable_windowOnly ht)
    · exact .inr (by simpa using ht)
  · have hwalk := walk_of_leafSlot hc hslot hn' (by rw [hself, hpres]) (.inr (by rw [hself, hsize]))
    rwa [hself] at hwalk

/-- The kernel has a tree of tables, free frames, and the large page. -/
theorem largePage_withLargePage {e : Nat} (hlt : e < 2 ^ 64) (hpres : present e = true) (hsize : pageSize e = true) :
    PageTables (withLargePage e).mem (withLargePage e).cr3 ∧ FreeFrames (withLargePage e) ∧
      walk (withLargePage e).mem (withLargePage e).cr3 0x400000 = some (e, 21) ∧
      tableAt (withLargePage e).mem (withLargePage e).cr3 [0, 0] = some 3 ∧
      tables (withLargePage e).mem 3 2 = e ∧
      upperEntries (withLargePage e).mem (withLargePage e).cr3 [0, 0] = [0x2003, 0x3003] := by
  have hc : (withLargePage e).cr3 = windowOnly.cr3 := rfl
  have hmap : (withLargePage e).physMmap = windowOnly.physMmap := rfl
  have hm : tables (withLargePage e).mem = (tables twoTables).set 3 2 e := tables_store64 twoTables 3 2 hlt
  obtain ⟨-, -, htab⟩ := grown_twoTables
  obtain ⟨hpt, htables, hwalk, hn, he⟩ := largePage_twoTables hm (v := 0x400000) (by decide) (by decide) .size2M hpres hsize
  rw [hc]
  refine ⟨hpt, ⟨?_, fun a ha => ?_⟩, hwalk, hn, he, ?_⟩
  · rw [hmap]
    exact freeFrames_windowOnly.wf
  · rw [hmap] at ha
    obtain ⟨haddr, hnz, -⟩ := freeFrames_windowOnly.good a ha
    refine ⟨haddr, hnz, fun ht => ?_⟩
    -- the three frames are not listed
    have hlisted := freePages_windowOnly ha
    have hthree := htables _ ht
    omega
  · have hent : ∀ k j, k ≠ 3 → tables (withLargePage e).mem k j = tables twoTables k j := fun k j hk => by
      rw [hm, Tables.set_apply_of_ne (.inl hk)]
    have hroot : frameOf windowOnly.cr3 = 1 := rfl
    have h₁ : tables (withLargePage e).mem 1 0 = 0x2003 := by
      rw [hent 1 0 (by decide), htab, Tables.set_apply_of_ne (.inl (by decide)), Tables.set_apply_self]
    have h₂ : tables (withLargePage e).mem 2 0 = 0x3003 := by
      rw [hent 2 0 (by decide), htab, Tables.set_apply_self]
    have hl₁ : link (tables (withLargePage e).mem 1 0) = some 2 := by
      rw [h₁]
      decide
    rw [upperEntries, hroot, Tables.trail_cons_of_link hl₁, h₁]
    have hl₂ : link (tables (withLargePage e).mem 2 0) = some 3 := by
      rw [h₂]
      decide
    rw [Tables.trail_cons_of_link hl₂, h₂]
    rfl

theorem enough_withLargePage (e : Nat) : splitTables 21 ≤ (withLargePage e).physMmap.freePages.length := by
  have hmap : (withLargePage e).physMmap = windowOnly.physMmap := rfl
  rw [hmap, freePages_windowOnly_length]
  decide

/-- A writable large page of the kernel is split, and everything else is kept. -/
theorem unmapPageFixSize_iff_withLargePage :
    ∃ s', (unmapPageFixSize 0x400000).Returns (withLargePage 0x600083) () s' ∧
      SplitKeeps (withLargePage 0x600083) s' 0x400000 21 := by
  obtain ⟨hpt, hfree, hwalk, hn, he, hupper⟩ := largePage_withLargePage (e := 0x600083) (by decide) rfl rfl
  refine (unmapPageFixSize_iff hpt hfree (by decide) hwalk (by decide) (by decide) (enough_withLargePage _)).mpr ?_
  have hslot : LeafSlot 0x400000 21 [0, 0] 2 := .size2M
  have hl : link (tables (withLargePage 0x600083).mem 3 2) = none := by
    rw [he]
    decide
  rw [trail_of_large hslot hn hl, List.dropLast_concat, hupper]
  exact ⟨by decide, by decide, by decide, by decide, by decide⟩

/-- A large page whose entry disables execution: the small pages do not. -/
theorem unmapPageFixSize_drops_executeDisable :
    PageTables (withLargePage 0x8000000000600083).mem (withLargePage 0x8000000000600083).cr3 ∧
      FreeFrames (withLargePage 0x8000000000600083) ∧
      walk (withLargePage 0x8000000000600083).mem (withLargePage 0x8000000000600083).cr3 0x400000 =
        some (0x8000000000600083, 21) ∧
      splitTables 21 ≤ (withLargePage 0x8000000000600083).physMmap.freePages.length ∧
      ¬∃ s', (unmapPageFixSize 0x400000).Returns (withLargePage 0x8000000000600083) () s' ∧
        SplitKeeps (withLargePage 0x8000000000600083) s' 0x400000 21 := by
  obtain ⟨hpt, hfree, hwalk, hn, he, hupper⟩ :=
    largePage_withLargePage (e := 0x8000000000600083) (by decide) (by decide) (by decide)
  have henough := enough_withLargePage 0x8000000000600083
  refine ⟨hpt, hfree, hwalk, henough, ?_⟩
  have hslot : LeafSlot 0x400000 21 [0, 0] 2 := .size2M
  obtain ⟨s', hret, hsp⟩ := unmapPageFixSize_split hpt hfree (by decide) (by decide) hslot (by decide) hn he
    (by decide) henough
  rintro ⟨s'', hret', hkeeps⟩
  obtain ⟨-, rfl⟩ := hret.det hret'
  -- the next page of the block
  have hfits := (hsp.fitsSmall (w := 0x401000) (by decide) hslot (by decide) (by decide) hn he (by decide)
    (by decide) (by decide) (by decide)).mp (hkeeps.block 0x401000 (by decide) (by decide))
  rw [hupper] at hfits
  obtain ⟨u, hu, hxd⟩ := hfits.executeDisable (by decide)
  simp only [List.mem_cons, List.not_mem_nil, or_false] at hu
  rcases hu with rfl | rfl <;> cases hxd

end KoalemOS.Paging
