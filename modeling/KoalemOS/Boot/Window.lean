import KoalemOS.Boot.Loader
import KoalemOS.Paging.Refinement

/-!
# The kernel's window and the loader's index walk address the same entries

The loader reaches an entry by an index walk from the PML4 (`pml4eAt` and its siblings);
the kernel reaches it at a virtual address of the recursive window (`pml4eAddrOf` and its
siblings). Where the entries above are present and link to tables below `2 ^ 48`, the MMU
translates the window address to the address of the index walk.
-/

namespace KoalemOS.Boot

open KoalemOS.Library KoalemOS.Paging

/-! ## The index walk (`src/boot/paging.c`) -/

/-- `PML4_INDEX_OF` -/
def pml4IndexOf (v : Nat) : Nat := v >>> 39 &&& 511

/-- `PDPT_INDEX_OF` -/
def pdptIndexOf (v : Nat) : Nat := v >>> 30 &&& 511

/-- `PD_INDEX_OF` -/
def pdIndexOf (v : Nat) : Nat := v >>> 21 &&& 511

/-- `PT_INDEX_OF` -/
def ptIndexOf (v : Nat) : Nat := v >>> 12 &&& 511

/-- `&pml4[PML4_INDEX_OF(v)]` -/
def pml4eAt (pml4 v : Nat) : Nat := pml4 + 8 * pml4IndexOf v

/-- `&pdpt[PDPT_INDEX_OF(v)]` -/
def pdpteAt (m : Mem) (pml4 v : Nat) : Nat :=
  nextStruct (m.load64 (pml4eAt pml4 v)) + 8 * pdptIndexOf v

/-- `&pd[PD_INDEX_OF(v)]` -/
def pdeAt (m : Mem) (pml4 v : Nat) : Nat :=
  nextStruct (m.load64 (pdpteAt m pml4 v)) + 8 * pdIndexOf v

/-- `&pt[PT_INDEX_OF(v)]` -/
def pteAt (m : Mem) (pml4 v : Nat) : Nat :=
  nextStruct (m.load64 (pdeAt m pml4 v)) + 8 * ptIndexOf v

/-- The four indices of the loader are those of the hardware. -/
theorem shift_index (v k : Nat) : v >>> k &&& 511 = index v k := by
  rw [Nat.shiftRight_eq_div_pow, show (511 : Nat) = 2 ^ 9 - 1 from rfl,
    Nat.and_two_pow_sub_one_eq_mod]
  rfl

/-! ## Entries below `2 ^ 48` -/

/-- An upper-level entry that is present, maps no large page and has no bit at or above
bit 48. -/
structure LinkEntry (e : Nat) : Prop where
  present : present e = true
  small : pageSize e = false
  lt : e < 2 ^ 48

/-- The table an entry links to starts where `NEXT_STRUCT` says. -/
theorem LinkEntry.link {e : Nat} (h : LinkEntry e) :
    link e = some (nextStruct e / 4096) ∧ 4096 * (nextStruct e / 4096) = nextStruct e := by
  have hlt := h.lt
  have hmask : nextStruct e = e / 2 ^ 12 % 2 ^ 52 * 2 ^ 12 := land_shifted_mask e 12 52
  rw [hmask]
  refine ⟨link_eq_some.mpr ⟨h.present, h.small, ?_⟩, by omega⟩
  unfold frameOf
  omega

section SameEntries

variable {m : Mem} {pml4 v : Nat}

/-- The table at the end of one more label, by the loader's arithmetic. -/
theorem tableAt_next {p : List (Fin 512)} {n : Nat} {i : Fin 512} (hn : tableAt m pml4 p = some n)
    (he : LinkEntry (m.load64 (4096 * n + 8 * i))) :
    tableAt m pml4 (p ++ [i]) = some (nextStruct (m.load64 (4096 * n + 8 * i)) / 4096) := by
  rw [tableAt_concat, hn, Option.bind_some]
  exact he.link.1

theorem pml4eAt_eq (hroot : FrameAddr pml4) :
    pml4eAt pml4 v = 4096 * frameOf pml4 + 8 * index v 39 := by
  have h1 := hroot.aligned
  have h2 := hroot.lt
  rw [pml4eAt, pml4IndexOf, shift_index]
  unfold frameOf
  omega

/-- Behind a PML4 entry that links, the loader's PDPT is the hardware's. -/
theorem pdpt_walk (hroot : FrameAddr pml4) (he : LinkEntry (m.load64 (pml4eAt pml4 v))) :
    ∃ n, tableAt m pml4 [index v 39] = some n ∧ pdpteAt m pml4 v = 4096 * n + 8 * index v 30 := by
  rw [pml4eAt_eq hroot] at he
  have hroot' : tableAt m pml4 [] = some (frameOf pml4) := rfl
  refine ⟨_, tableAt_next (p := []) hroot' he, ?_⟩
  rw [pdpteAt, pdptIndexOf, shift_index, pml4eAt_eq hroot, he.link.2]

/-- Behind a PDPT entry that links, the loader's PD is the hardware's. -/
theorem pd_walk (hroot : FrameAddr pml4) (he₄ : LinkEntry (m.load64 (pml4eAt pml4 v)))
    (he : LinkEntry (m.load64 (pdpteAt m pml4 v))) :
    ∃ n, tableAt m pml4 [index v 39, index v 30] = some n ∧
      pdeAt m pml4 v = 4096 * n + 8 * index v 21 := by
  obtain ⟨n, hn, haddr⟩ := pdpt_walk hroot he₄
  rw [haddr] at he
  refine ⟨_, tableAt_next (p := [index v 39]) hn he, ?_⟩
  rw [pdeAt, pdIndexOf, shift_index, haddr, he.link.2]

/-- Behind a PD entry that links, the loader's PT is the hardware's. -/
theorem pt_walk (hroot : FrameAddr pml4) (he₄ : LinkEntry (m.load64 (pml4eAt pml4 v)))
    (he₃ : LinkEntry (m.load64 (pdpteAt m pml4 v))) (he : LinkEntry (m.load64 (pdeAt m pml4 v))) :
    ∃ n, tableAt m pml4 [index v 39, index v 30, index v 21] = some n ∧
      pteAt m pml4 v = 4096 * n + 8 * index v 12 := by
  obtain ⟨n, hn, haddr⟩ := pd_walk hroot he₄ he₃
  rw [haddr] at he
  refine ⟨_, tableAt_next (p := [index v 39, index v 30]) hn he, ?_⟩
  rw [pteAt, ptIndexOf, shift_index, haddr, he.link.2]

/-- A window slot that holds the PML4. -/
theorem selfMap_of_entry (hroot : FrameAddr pml4) (he : LinkEntry (m.load64 (pml4 + 8 * 511)))
    (hself : nextStruct (m.load64 (pml4 + 8 * 511)) = pml4) :
    link (tables m (frameOf pml4) 511) = some (frameOf pml4) := by
  have h1 := hroot.aligned
  have h2 := hroot.lt
  have haddr : 4096 * frameOf pml4 + 8 * ((511 : Fin 512) : Nat) = pml4 + 8 * 511 := by
    have h511 : ((511 : Fin 512) : Nat) = 511 := rfl
    unfold frameOf
    omega
  rw [show tables m (frameOf pml4) 511 = m.load64 (pml4 + 8 * 511) from congrArg m.load64 haddr,
    he.link.1, hself]
  unfold frameOf
  congr 1
  omega

/-- `PHYS_ADDR_OF` of an address that a small page maps. -/
theorem returns_physAddrOf {s : Kernel} {n e : Nat}
    (hself : link (tables s.mem (frameOf s.cr3) 511) = some (frameOf s.cr3))
    (hn : ptAt s.mem s.cr3 v = some n) (hwalk : walk s.mem s.cr3 v = some (e, 12))
    (hlt : e < 2 ^ 48) :
    ∃ a, (physAddrOf v).Returns s a s ∧ translate s.mem s.cr3 v = some a := by
  have hcanonical : canonical v = true := by
    by_contra hc
    rw [walk, if_neg hc] at hwalk
    cases hwalk
  -- the leaf entry of the walk is the one the window shows
  have hleaf := hwalk
  rw [walk_of_ptAt hcanonical hn] at hleaf
  split_ifs at hleaf
  obtain ⟨rfl, -⟩ := Prod.mk.inj (Option.some.inj hleaf)
  refine ⟨leafAddr (tables s.mem n (index v 12), 12) v, ?_, by rw [Paging.translate, hwalk]; rfl⟩
  refine (readEntry (translate_pteAddrOf hself hn)).bind ?_
  have hframe : tables s.mem n (index v 12) &&& 0xFFFFFFFFF000 =
      tables s.mem n (index v 12) / 2 ^ 12 % 2 ^ 36 * 2 ^ 12 := land_shifted_mask _ 12 36
  have hoffset : v &&& 0xFFF = v % 4096 := Nat.and_two_pow_sub_one_eq_mod v 12
  have hvalue : (tables s.mem n (index v 12) &&& 0xFFFFFFFFF000) + (v &&& 0xFFF) =
      leafAddr (tables s.mem n (index v 12), 12) v := by
    rw [hframe, hoffset, leafAddr_small]
    unfold frameOf
    omega
  rw [← hvalue]
  exact Outcome.returns_pure _ _

end SameEntries

/-- **The window and the index walk agree.** With the PML4 in a frame below `2 ^ 48` and in
its own slot 511, the four window addresses of `v` translate to the addresses of the
loader's walk, each as soon as the entries above it link, without bits from 48 on; and
`PHYS_ADDR_OF(v)` is what the MMU translates `v` to, when a small page maps it. -/
theorem window_agrees_with_index_walk {s : Kernel} (hroot : FrameAddr s.cr3)
    (hself : LinkEntry (s.mem.load64 (s.cr3 + 8 * 511)))
    (hself' : nextStruct (s.mem.load64 (s.cr3 + 8 * 511)) = s.cr3) (v : Nat) :
    translate s.mem s.cr3 (pml4eAddrOf v) = some (pml4eAt s.cr3 v) ∧
    (LinkEntry (s.mem.load64 (pml4eAt s.cr3 v)) →
      translate s.mem s.cr3 (pdpteAddrOf v) = some (pdpteAt s.mem s.cr3 v) ∧
      (LinkEntry (s.mem.load64 (pdpteAt s.mem s.cr3 v)) →
        translate s.mem s.cr3 (pdeAddrOf v) = some (pdeAt s.mem s.cr3 v) ∧
        (LinkEntry (s.mem.load64 (pdeAt s.mem s.cr3 v)) →
          translate s.mem s.cr3 (pteAddrOf v) = some (pteAt s.mem s.cr3 v) ∧
          ∀ e, walk s.mem s.cr3 v = some (e, 12) → e < 2 ^ 48 →
            ∃ a, (physAddrOf v).Returns s a s ∧ translate s.mem s.cr3 v = some a))) := by
  have hwindow := selfMap_of_entry hroot hself hself'
  refine ⟨?_, fun he₄ => ?_⟩
  · rw [translate_pml4eAddrOf hwindow, pml4eAt_eq hroot]
  obtain ⟨n₃, hn₃, h₃⟩ := pdpt_walk hroot he₄
  refine ⟨?_, fun he₃ => ?_⟩
  · rw [translate_pdpteAddrOf hwindow hn₃, h₃]
  obtain ⟨n₂, hn₂, h₂⟩ := pd_walk hroot he₄ he₃
  refine ⟨?_, fun he₂ => ?_⟩
  · rw [translate_pdeAddrOf hwindow hn₂, h₂]
  obtain ⟨n₁, hn₁, h₁⟩ := pt_walk hroot he₄ he₃ he₂
  refine ⟨?_, fun e hwalk hlt => returns_physAddrOf hwindow hn₁ hwalk hlt⟩
  rw [translate_pteAddrOf hwindow hn₁, h₁]

/-- Tables that map the page at `0x5000` to frame 9, behind a window in slot 511. -/
def onePage : Kernel :=
  { windowOnly with
    mem := (((windowOnly.mem.store64 0x1000 0x2003).store64 0x2000 0x3003).store64 0x3000
      0x4003).store64 0x4028 0x9003 }

/-- The window shows the entry of a page, and the page's address. -/
theorem window_agrees_with_index_walk_onePage :
    translate onePage.mem onePage.cr3 (pteAddrOf 0x5123) = some 0x4028 ∧
      ∃ a, (physAddrOf 0x5123).Returns onePage a onePage ∧
        translate onePage.mem onePage.cr3 0x5123 = some a := by
  have hroot : FrameAddr onePage.cr3 := ⟨by decide, by decide⟩
  have hself : LinkEntry (onePage.mem.load64 (onePage.cr3 + 8 * 511)) :=
    ⟨by decide +kernel, by decide +kernel, by decide +kernel⟩
  obtain ⟨-, h₄⟩ := window_agrees_with_index_walk hroot hself (by decide +kernel) 0x5123
  obtain ⟨-, h₃⟩ := h₄ ⟨by decide +kernel, by decide +kernel, by decide +kernel⟩
  obtain ⟨-, h₂⟩ := h₃ ⟨by decide +kernel, by decide +kernel, by decide +kernel⟩
  obtain ⟨hpte, h₁⟩ := h₂ ⟨by decide +kernel, by decide +kernel, by decide +kernel⟩
  have haddr : pteAt onePage.mem onePage.cr3 0x5123 = 0x4028 := by decide +kernel
  have hwalk : walk onePage.mem onePage.cr3 0x5123 = some (0x9003, 12) := by decide +kernel
  rw [haddr] at hpte
  exact ⟨hpte, h₁ 0x9003 hwalk (by decide)⟩

end KoalemOS.Boot
