import KoalemOS.Paging.Entries
import KoalemOS.Paging.MapPage

/-!
# What the kernel sees through the recursive window

When slot 511 of the PML4 links to the PML4 itself, the window address of an entry
translates to the entry's place in physical memory (`translate_pml4eAddrOf` and its
siblings), for as long as the tables above it are linked; so `readWord` and `writeWord`
at window addresses are reads and edits of the tables (`readEntry`, `writeEntry`).
-/

namespace KoalemOS.Paging

open KoalemOS.Library KoalemOS.Mmap

/-! ## Window addresses -/

theorem pml4eAddrOf_eq (v : Nat) : pml4eAddrOf v = 0xFFFFFFFFFFFFF000 + v / 2 ^ 39 % 2 ^ 9 * 8 := by
  have hmask : v &&& 0xFF8000000000 = v / 2 ^ 39 % 2 ^ 9 * 2 ^ 39 := land_shifted_mask v 39 9
  rw [pml4eAddrOf, hmask, Nat.shiftRight_eq_div_pow,
    lor_eq_add (i := 12) (by norm_num) (by omega)]
  omega

theorem pdpteAddrOf_eq (v : Nat) :
    pdpteAddrOf v = 0xFFFFFFFFFFE00000 + v / 2 ^ 30 % 2 ^ 18 * 8 := by
  have hmask : v &&& 0xFFFFC0000000 = v / 2 ^ 30 % 2 ^ 18 * 2 ^ 30 := land_shifted_mask v 30 18
  rw [pdpteAddrOf, hmask, Nat.shiftRight_eq_div_pow,
    lor_eq_add (i := 21) (by norm_num) (by omega)]
  omega

theorem pdeAddrOf_eq (v : Nat) : pdeAddrOf v = 0xFFFFFFFFC0000000 + v / 2 ^ 21 % 2 ^ 27 * 8 := by
  have hmask : v &&& 0xFFFFFFE00000 = v / 2 ^ 21 % 2 ^ 27 * 2 ^ 21 := land_shifted_mask v 21 27
  rw [pdeAddrOf, hmask, Nat.shiftRight_eq_div_pow,
    lor_eq_add (i := 30) (by norm_num) (by omega)]
  omega

theorem pteAddrOf_eq (v : Nat) : pteAddrOf v = 0xFFFFFF8000000000 + v / 2 ^ 12 % 2 ^ 36 * 8 := by
  have hmask : v &&& 0xFFFFFFFFF000 = v / 2 ^ 12 % 2 ^ 36 * 2 ^ 12 := land_shifted_mask v 12 36
  rw [pteAddrOf, hmask, Nat.shiftRight_eq_div_pow,
    lor_eq_add (i := 39) (by norm_num) (by omega)]
  omega

/-- The indices and the page offset of an address. -/
structure HasIndices (w : Nat) (a b c d : Fin 512) (offset : Nat) : Prop where
  canonical : canonical w = true
  pml4 : index w 39 = a
  pdpt : index w 30 = b
  pd : index w 21 = c
  pt : index w 12 = d
  offset : w % 4096 = offset

/-- The indices of an address in the upper half. -/
private theorem hasIndices_of_eq {w offset : Nat} {a b c d : Fin 512} (hw : 2 ^ 64 - 2 ^ 47 ≤ w)
    (hw' : w < 2 ^ 64) (ha : w / 2 ^ 39 % 512 = a) (hb : w / 2 ^ 30 % 512 = b)
    (hc : w / 2 ^ 21 % 512 = c) (hd : w / 2 ^ 12 % 512 = d) (ho : w % 4096 = offset) :
    HasIndices w a b c d offset where
  canonical := by
    simp only [Paging.canonical, Bool.or_eq_true, Bool.and_eq_true, decide_eq_true_eq]
    exact .inr ⟨hw, hw'⟩
  pml4 := Fin.ext ha
  pdpt := Fin.ext hb
  pd := Fin.ext hc
  pt := Fin.ext hd
  offset := ho

theorem hasIndices_pml4e (v : Nat) :
    HasIndices (pml4eAddrOf v) 511 511 511 511 (8 * index v 39) := by
  rw [pml4eAddrOf_eq]
  have h511 : ((511 : Fin 512) : Nat) = 511 := rfl
  refine hasIndices_of_eq (by omega) (by omega) ?_ ?_ ?_ ?_ ?_ <;>
    simp only [index, h511] <;> omega

theorem hasIndices_pdpte (v : Nat) :
    HasIndices (pdpteAddrOf v) 511 511 511 (index v 39) (8 * index v 30) := by
  rw [pdpteAddrOf_eq]
  have h511 : ((511 : Fin 512) : Nat) = 511 := rfl
  refine hasIndices_of_eq (by omega) (by omega) ?_ ?_ ?_ ?_ ?_ <;>
    simp only [index, h511] <;> omega

theorem hasIndices_pde (v : Nat) :
    HasIndices (pdeAddrOf v) 511 511 (index v 39) (index v 30) (8 * index v 21) := by
  rw [pdeAddrOf_eq]
  have h511 : ((511 : Fin 512) : Nat) = 511 := rfl
  refine hasIndices_of_eq (by omega) (by omega) ?_ ?_ ?_ ?_ ?_ <;>
    simp only [index, h511] <;> omega

theorem hasIndices_pte (v : Nat) :
    HasIndices (pteAddrOf v) 511 (index v 39) (index v 30) (index v 21) (8 * index v 12) := by
  rw [pteAddrOf_eq]
  have h511 : ((511 : Fin 512) : Nat) = 511 := rfl
  refine hasIndices_of_eq (by omega) (by omega) ?_ ?_ ?_ ?_ ?_ <;>
    simp only [index, h511] <;> omega

/-! ## Translating window addresses -/

/-- An address whose four entries all link translates into the last table linked to. -/
theorem translate_of_descend {m : Mem} {cr3 w offset n : Nat} {a b c d : Fin 512}
    (hw : HasIndices w a b c d offset) (h : tableAt m cr3 [a, b, c, d] = some n) :
    translate m cr3 w = some (4096 * n + offset) := by
  simp only [tableAt, Tables.descend, Option.bind_eq_some_iff, Option.some.injEq] at h
  obtain ⟨n₃, h₃, n₂, h₂, n₁, h₁, n₀, h₀, rfl⟩ := h
  obtain ⟨p₃, s₃, rfl⟩ := link_eq_some.mp h₃
  obtain ⟨p₂, s₂, rfl⟩ := link_eq_some.mp h₂
  obtain ⟨p₁, s₁, rfl⟩ := link_eq_some.mp h₁
  obtain ⟨p₀, -, rfl⟩ := link_eq_some.mp h₀
  simp [translate, walk, indices, walkFrom, hw.canonical, hw.pml4, hw.pdpt, hw.pd, hw.pt, p₃, s₃,
    p₂, s₂, p₁, s₁, p₀, leafAddr_small, hw.offset]

section SelfMap

variable {m : Mem} {cr3 n : Nat} (hself : link (tables m (frameOf cr3) 511) = some (frameOf cr3))

include hself

/-- The window slot leads back to the PML4. -/
theorem tableAt_window (p : List (Fin 512)) : tableAt m cr3 (511 :: p) = tableAt m cr3 p := by
  simp only [tableAt, Tables.descend, hself, Option.bind_some]

theorem translate_pml4eAddrOf (v : Nat) :
    translate m cr3 (pml4eAddrOf v) = some (4096 * frameOf cr3 + 8 * index v 39) := by
  refine translate_of_descend (hasIndices_pml4e v) ?_
  rw [tableAt_window hself, tableAt_window hself, tableAt_window hself, tableAt_window hself]
  rfl

theorem translate_pdpteAddrOf {v : Nat} (h : tableAt m cr3 [index v 39] = some n) :
    translate m cr3 (pdpteAddrOf v) = some (4096 * n + 8 * index v 30) := by
  refine translate_of_descend (hasIndices_pdpte v) ?_
  rw [tableAt_window hself, tableAt_window hself, tableAt_window hself, h]

theorem translate_pdeAddrOf {v : Nat} (h : tableAt m cr3 [index v 39, index v 30] = some n) :
    translate m cr3 (pdeAddrOf v) = some (4096 * n + 8 * index v 21) := by
  refine translate_of_descend (hasIndices_pde v) ?_
  rw [tableAt_window hself, tableAt_window hself, h]

theorem translate_pteAddrOf {v : Nat}
    (h : tableAt m cr3 [index v 39, index v 30, index v 21] = some n) :
    translate m cr3 (pteAddrOf v) = some (4096 * n + 8 * index v 12) := by
  refine translate_of_descend (hasIndices_pte v) ?_
  rw [tableAt_window hself, h]

end SelfMap

/-! ## Reading and writing entries -/

/-- The state after a store of `e` at label `i` of table `n`. -/
def Kernel.setEntry (s : Kernel) (n : Nat) (i : Fin 512) (e : Nat) : Kernel :=
  { s with mem := s.mem.store64 (4096 * n + 8 * i) e }

@[simp] theorem setEntry_cr3 (s : Kernel) (n : Nat) (i : Fin 512) (e : Nat) :
    (s.setEntry n i e).cr3 = s.cr3 := rfl

theorem tables_setEntry (s : Kernel) (n : Nat) (i : Fin 512) {e : Nat} (he : e < 2 ^ 64) :
    tables (s.setEntry n i e).mem = (tables s.mem).set n i e := tables_store64 s.mem n i he

theorem returns_mmu {s : Kernel} {v a : Nat} (h : translate s.mem s.cr3 v = some a) :
    (mmu v).Returns s a s := by
  show mmu v s = _
  unfold mmu
  rw [h]

theorem readEntry {s : Kernel} {v n : Nat} {i : Fin 512}
    (h : translate s.mem s.cr3 v = some (4096 * n + 8 * i)) :
    (readWord v).Returns s (tables s.mem n i) s :=
  (returns_mmu h).bind (Outcome.returns_gets _ s)

theorem writeEntry {s : Kernel} {v n : Nat} {i : Fin 512} (e : Nat)
    (h : translate s.mem s.cr3 v = some (4096 * n + 8 * i)) :
    (writeWord v e).Returns s () (s.setEntry n i e) :=
  (returns_mmu h).bind (Outcome.returns_modify _ s)

theorem orEntry {s : Kernel} {v n : Nat} {i : Fin 512} (e : Nat)
    (h : translate s.mem s.cr3 v = some (4096 * n + 8 * i)) :
    (orWord v e).Returns s () (s.setEntry n i (tables s.mem n i ||| e)) :=
  (readEntry h).bind (writeEntry _ h)

end KoalemOS.Paging
