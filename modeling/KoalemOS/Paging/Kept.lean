import KoalemOS.Paging.Window

/-!
# What the edits of the tables leave alone (`src/kernel/memory.c`)

`map_page`, `unmap_page` and `unmap_page_fix_size` change memory through the MMU and take frames one by
one, and nothing else. So they keep every invariant that these two steps keep, wherever they end
(`keeps_unmapPageFixSize`).
-/

namespace KoalemOS.Paging

open KoalemOS.Library KoalemOS.Mmap

section Kept

variable {I : Kernel → Prop}

theorem keeps_mmu (v : Nat) : Outcome.Keeps I (mmu v) := by
  intro s hs
  cases h : translate s.mem s.cr3 v with
  | some a => exact Outcome.ends_of_returns (returns_mmu h) hs
  | none =>
    have hfault : (mmu v).Stops s (.pageFault v) s := by
      show mmu v s = _
      unfold mmu
      rw [h]
    exact Outcome.ends_of_stops hfault hs

theorem keeps_readWord (v : Nat) : Outcome.Keeps I (readWord v) :=
  (keeps_mmu v).bind fun _ => Outcome.keeps_gets _

/-- A part of `map_page`, which reads an entry and allocates a table where it is absent. -/
theorem keeps_part {addr : Nat} {m₁ : KernelM Unit} {m₂ : Nat → KernelM Unit} {message : String}
    (halloc : ∀ s, I s → I (s.allocated 1)) (h₁ : Outcome.Keeps I m₁) (h₂ : ∀ t, Outcome.Keeps I (m₂ t)) :
    Outcome.Keeps I (readWord addr >>= fun e => if present e then m₁ else
      allocPhysPages 1 >>= fun t => if t ≠ 0 then m₂ t else kernelPanic message) := by
  have hframe : Outcome.Keeps I (allocPhysPages 1) := fun s hs =>
    Outcome.ends_of_returns (returns_allocPhysPages s 1) (halloc s hs)
  refine (keeps_readWord _).bind fun e => h₁.ite ?_
  exact hframe.bind fun t => (h₂ t).ite (Outcome.keeps_stop _)

/-- The same from a state whose entry is known: a frame is taken only where it is absent. -/
theorem ends_part {s : Kernel} {addr e : Nat} {m₁ : KernelM Unit} {m₂ : Nat → KernelM Unit} {message : String}
    (hread : (readWord addr).Returns s e s) (hs : I s) (halloc : present e = false → I (s.allocated 1))
    (h₁ : Outcome.Keeps I m₁) (h₂ : ∀ t, Outcome.Keeps I (m₂ t)) :
    Outcome.ends (fun _ => I) I (readWord addr >>= fun e => if present e then m₁ else
      allocPhysPages 1 >>= fun t => if t ≠ 0 then m₂ t else kernelPanic message) s := by
  refine Outcome.ends_bind_returns hread ?_
  cases hpres : present e with
  | true =>
    rw [if_pos rfl]
    exact h₁ s hs
  | false =>
    rw [if_neg (by decide)]
    refine Outcome.ends_bind_returns (returns_allocPhysPages s 1) ?_
    exact (h₂ _).ite (Outcome.keeps_stop _) _ (halloc hpres)

variable (hmem : ∀ s (m : Mem), I s → I { s with mem := m })

include hmem

theorem keeps_writeWord (v x : Nat) : Outcome.Keeps I (writeWord v x) :=
  (keeps_mmu v).bind fun _ => Outcome.keeps_modify fun s => hmem s _

theorem keeps_orWord (v x : Nat) : Outcome.Keeps I (orWord v x) :=
  (keeps_readWord v).bind fun _ => keeps_writeWord hmem v _

theorem keeps_linkTable (entryAddr e e' : Nat) (slotAddr : Nat → Nat) :
    Outcome.Keeps I (linkTable entryAddr e e' slotAddr) :=
  (keeps_writeWord hmem _ _).bind fun _ => (Outcome.Keeps.loop 0 512 fun _ _ _ => keeps_writeWord hmem _ _).bind
    fun _ => keeps_writeWord hmem _ _

theorem keeps_writePte (v pte : Nat) : Outcome.Keeps I (writePte v pte) :=
  (keeps_readWord _).bind fun _ => (keeps_orWord hmem _ _).bind fun _ => (keeps_readWord _).bind fun _ =>
    (keeps_orWord hmem _ _).bind fun _ => (keeps_readWord _).bind fun _ => (keeps_orWord hmem _ _).bind fun _ =>
    (keeps_writeWord hmem _ _).bind fun _ => (keeps_writeWord hmem _ _).bind fun _ =>
    (keeps_writeWord hmem _ _).bind fun _ => keeps_writeWord hmem _ _

theorem keeps_clearPdpte (v : Nat) : Outcome.Keeps I (clearPdpte v) :=
  (keeps_readWord _).bind fun _ => (keeps_orWord hmem _ _).bind fun _ => (keeps_writeWord hmem _ _).bind fun _ =>
    keeps_writeWord hmem _ _

theorem keeps_clearPde (v : Nat) : Outcome.Keeps I (clearPde v) :=
  (keeps_readWord _).bind fun _ => (keeps_orWord hmem _ _).bind fun _ => (keeps_readWord _).bind fun _ =>
    (keeps_orWord hmem _ _).bind fun _ => (keeps_writeWord hmem _ _).bind fun _ =>
    (keeps_writeWord hmem _ _).bind fun _ => keeps_writeWord hmem _ _

variable (halloc : ∀ s, I s → I (s.allocated 1))

include halloc

theorem keeps_mapPage (v p flags : Nat) : Outcome.Keeps I (mapPage v p flags) := by
  have hpdpt : Outcome.Keeps I (mapPagePdpt v flags) :=
    keeps_part halloc (keeps_orWord hmem _ _) fun _ => keeps_linkTable hmem _ _ _ _
  have hpd : Outcome.Keeps I (mapPagePd v flags) :=
    keeps_part halloc (keeps_orWord hmem _ _) fun _ => (keeps_readWord _).bind fun _ =>
      (keeps_orWord hmem _ _).bind fun _ => (keeps_linkTable hmem _ _ _ _).bind fun _ => keeps_writeWord hmem _ _
  have hpt : Outcome.Keeps I (mapPagePt v flags) :=
    keeps_part halloc (keeps_orWord hmem _ _) fun _ => (keeps_readWord _).bind fun _ =>
      (keeps_orWord hmem _ _).bind fun _ => (keeps_readWord _).bind fun _ => (keeps_orWord hmem _ _).bind fun _ =>
      (keeps_linkTable hmem _ _ _ _).bind fun _ => (keeps_writeWord hmem _ _).bind fun _ => keeps_writeWord hmem _ _
  exact hpdpt.bind fun _ => hpd.bind fun _ => hpt.bind fun _ => keeps_writePte hmem _ _

/-- What an edit of memory and a frame taken leave alone, `unmap_page_fix_size` leaves alone. -/
theorem keeps_unmapPageFixSize (v : Nat) : Outcome.Keeps I (unmapPageFixSize v) := by
  have hsplit : ∀ v p flags count, Outcome.Keeps I (splitPage v p flags count) := fun v p flags count =>
    Outcome.Keeps.loop 0 count fun _ _ _ => keeps_mapPage hmem halloc _ _ _
  have hunmap : Outcome.Keeps I (unmapPage v) := keeps_writePte hmem v 0
  refine (keeps_readWord _).bind fun pdpte => ?_
  refine Outcome.Keeps.ite (c := pageSize pdpte = true) ?_ ?_
  · exact (keeps_clearPdpte hmem v).bind fun _ => (hsplit _ _ _ _).bind fun _ => hunmap
  · refine (keeps_readWord _).bind fun pde => ?_
    refine Outcome.Keeps.ite (c := pageSize pde = true) ?_ hunmap
    exact (keeps_clearPde hmem v).bind fun _ => (hsplit _ _ _ _).bind fun _ => hunmap

end Kept

end KoalemOS.Paging
