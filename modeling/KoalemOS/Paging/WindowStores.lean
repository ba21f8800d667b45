import KoalemOS.Paging.Tree
import KoalemOS.Paging.Window

/-!
# Editing tables through the window, with and without write protection

With `CR0.WP` set a supervisor store faults unless every entry of the walk of its address
is writable. The editor of `MapPage` is given here over any way to store a word
(`mapPageWith`, which with `writeWord` is `mapPage`), so that what its parts do is proved
once for both machines.

- `writableAt`, `writeWordProtected`: the store that can fault
- `Shows`: an address of the window shows an entry
- `Open`: a table can be edited through the window
- `linkTableWith_spec`: a zeroed table behind an entry
-/

namespace KoalemOS.Paging

open KoalemOS.Library KoalemOS.Mmap

/-! ## Write protection -/

/-- The entries that the hardware walk of an address reads. -/
def trail (m : Mem) (cr3 v : Nat) : List Nat :=
  Tables.trail link (tables m) (frameOf cr3) (indices v)

/-- The writable bit is set in every entry of the walk. -/
def writableAt (m : Mem) (cr3 v : Nat) : Bool := (trail m cr3 v).all readWrite

/-- `*(uint64_t*)v = x` with `CR0.WP` set. -/
def writeWordProtected (v x : Nat) : KernelM Unit := fun s =>
  if writableAt s.mem s.cr3 v then writeWord v x s else (.error (.pageFault v), s)

/-- `store` stores a word at every address that translates, and, where write protection
counts, is writable. -/
def StoresWord (store : Nat → Nat → KernelM Unit) (wp : Prop) : Prop :=
  ∀ s v x a, translate s.mem s.cr3 v = some a → (wp → writableAt s.mem s.cr3 v = true) →
    (store v x).Returns s () { s with mem := s.mem.store64 a x }

theorem storesWord_writeWord : StoresWord writeWord False := fun s _ _ _ h _ =>
  (returns_mmu h).bind (Outcome.returns_modify _ s)

theorem storesWord_writeWordProtected : StoresWord writeWordProtected True := by
  intro s v x a h hw
  show writeWordProtected v x s = _
  unfold writeWordProtected
  rw [if_pos (hw trivial)]
  exact storesWord_writeWord s v x a h False.elim

theorem writeWordProtected_stops {s : Kernel} {v x : Nat} (h : writableAt s.mem s.cr3 v = false) :
    (writeWordProtected v x).Stops s (.pageFault v) s := by
  show writeWordProtected v x s = _
  unfold writeWordProtected
  rw [h]
  rfl

/-! ## The editor over a store -/

section Editor

variable (store : Nat → Nat → KernelM Unit)

/-- `*(uint64_t*)v |= x` -/
def orWordWith (v x : Nat) : KernelM Unit := do
  let e ← readWord v
  store v (e ||| x)

/-- `linkTable` -/
def linkTableWith (entryAddr e e' : Nat) (slotAddr : Nat → Nat) : KernelM Unit := do
  store entryAddr e
  Outcome.loop 0 512 fun i => store (slotAddr i) 0
  store entryAddr e'

/-- `mapPagePdpt` -/
def mapPagePdptWith (v flags : Nat) : KernelM Unit := do
  let pml4e ← readWord (pml4eAddrOf v)
  if present pml4e then orWordWith store (pml4eAddrOf v) flags
  else
    let pdpt ← allocPhysPages 1
    if pdpt ≠ 0 then
      linkTableWith store (pml4eAddrOf v) (pdpt ||| pagingFlagPresent ||| pagingFlagReadWrite)
        (pdpt ||| pagingFlagPresent ||| flags) fun i =>
          pdpteAddrOf (wrap ((v &&& 0xFFFFFF8000000000) + 0x40000000 * i))
    else kernelPanic "no space for PDPT"

/-- `mapPagePd` -/
def mapPagePdWith (v flags : Nat) : KernelM Unit := do
  let pdpte ← readWord (pdpteAddrOf v)
  if present pdpte then orWordWith store (pdpteAddrOf v) flags
  else
    let pd ← allocPhysPages 1
    if pd ≠ 0 then
      let pml4e ← readWord (pml4eAddrOf v)
      orWordWith store (pml4eAddrOf v) pagingFlagReadWrite
      linkTableWith store (pdpteAddrOf v) (pd ||| pagingFlagPresent ||| pagingFlagReadWrite)
        (pd ||| pagingFlagPresent ||| flags) fun i =>
          pdeAddrOf (wrap ((v &&& 0xFFFFFFFFC0000000) + 0x200000 * i))
      store (pml4eAddrOf v) pml4e
    else kernelPanic "no space for PD"

/-- `mapPagePt` -/
def mapPagePtWith (v flags : Nat) : KernelM Unit := do
  let pde ← readWord (pdeAddrOf v)
  if present pde then orWordWith store (pdeAddrOf v) flags
  else
    let pt ← allocPhysPages 1
    if pt ≠ 0 then
      let pml4e ← readWord (pml4eAddrOf v)
      orWordWith store (pml4eAddrOf v) pagingFlagReadWrite
      let pdpte ← readWord (pdpteAddrOf v)
      orWordWith store (pdpteAddrOf v) pagingFlagReadWrite
      linkTableWith store (pdeAddrOf v) (pt ||| pagingFlagPresent ||| pagingFlagReadWrite ||| flags)
        (pt ||| pagingFlagPresent ||| flags) fun i =>
          pteAddrOf (wrap ((v &&& 0xFFFFFFFFFFE00000) + 0x1000 * i))
      store (pdpteAddrOf v) pdpte
      store (pml4eAddrOf v) pml4e
    else kernelPanic "no space for PT"

/-- `writePte` -/
def writePteWith (v pte : Nat) : KernelM Unit := do
  let pml4e ← readWord (pml4eAddrOf v)
  orWordWith store (pml4eAddrOf v) pagingFlagReadWrite
  let pdpte ← readWord (pdpteAddrOf v)
  orWordWith store (pdpteAddrOf v) pagingFlagReadWrite
  let pde ← readWord (pdeAddrOf v)
  orWordWith store (pdeAddrOf v) pagingFlagReadWrite
  store (pteAddrOf v) pte
  store (pdeAddrOf v) pde
  store (pdpteAddrOf v) pdpte
  store (pml4eAddrOf v) pml4e

/-- `map_page` -/
def mapPageWith (v p flags : Nat) : KernelM Unit := do
  mapPagePdptWith store v flags
  mapPagePdWith store v flags
  mapPagePtWith store v flags
  writePteWith store v (p ||| pagingFlagPresent ||| flags)

/-- `unmap_page` -/
def unmapPageWith (v : Nat) : KernelM Unit := writePteWith store v 0

end Editor

/-- Over `writeWord` the editor is the kernel's. -/
theorem mapPageWith_writeWord (v p flags : Nat) : mapPageWith writeWord v p flags = mapPage v p flags := rfl

theorem unmapPageWith_writeWord (v : Nat) : unmapPageWith writeWord v = unmapPage v := rfl

/-! ## What the window shows -/

/-- The address shows entry `i` of the table at the end of path `p`: its walk goes through
slot 511 as often as `p` is short of three indices, and then along `p`. -/
structure Shows (addr : Nat) (p : List (Fin 512)) (i : Fin 512) : Prop where
  canonical : canonical addr = true
  path : indices addr = List.replicate (4 - p.length) 511 ++ p
  offset : addr % 4096 = 8 * i
  length : p.length ≤ 3

theorem HasIndices.shows {addr : Nat} {a b c d i : Fin 512} {p : List (Fin 512)}
    (h : HasIndices addr a b c d (8 * i)) (hlen : p.length ≤ 3)
    (hp : [a, b, c, d] = List.replicate (4 - p.length) 511 ++ p) : Shows addr p i where
  canonical := h.canonical
  path := by rw [indices, h.pml4, h.pdpt, h.pd, h.pt, hp]
  offset := h.offset
  length := hlen

theorem shows_pml4e (v : Nat) : Shows (pml4eAddrOf v) [] (index v 39) :=
  (hasIndices_pml4e v).shows (by decide) rfl

theorem shows_pdpte (v : Nat) : Shows (pdpteAddrOf v) [index v 39] (index v 30) :=
  (hasIndices_pdpte v).shows (by simp) rfl

theorem shows_pde (v : Nat) : Shows (pdeAddrOf v) [index v 39, index v 30] (index v 21) :=
  (hasIndices_pde v).shows (by simp) rfl

theorem shows_pte (v : Nat) : Shows (pteAddrOf v) [index v 39, index v 30, index v 21] (index v 12) :=
  (hasIndices_pte v).shows (by simp) rfl

section Window

variable {m m' : Mem} {cr3 addr n k : Nat} {p : List (Fin 512)} {i : Fin 512}

/-- Going round in slot 511 first changes nothing. -/
theorem trail_window (hself : link (tables m (frameOf cr3) 511) = some (frameOf cr3)) (k : Nat)
    (p : List (Fin 512)) :
    tableAt m cr3 (List.replicate k 511 ++ p) = tableAt m cr3 p ∧
      Tables.trail link (tables m) (frameOf cr3) (List.replicate k 511 ++ p) =
        List.replicate k (tables m (frameOf cr3) 511) ++ Tables.trail link (tables m) (frameOf cr3) p := by
  induction k with
  | zero => exact ⟨rfl, rfl⟩
  | succ k ih =>
    rw [List.replicate_succ, List.cons_append, tableAt_window hself, Tables.trail_cons_of_link hself,
      List.replicate_succ, List.cons_append, ih.2]
    exact ⟨ih.1, rfl⟩

theorem Shows.translate (h : Shows addr p i)
    (hself : link (tables m (frameOf cr3) 511) = some (frameOf cr3)) (hn : tableAt m cr3 p = some n) :
    translate m cr3 addr = some (4096 * n + 8 * i) := by
  refine translate_of_descend ⟨h.canonical, rfl, rfl, rfl, rfl, h.offset⟩ ?_
  show tableAt m cr3 (indices addr) = some n
  rw [h.path, (trail_window hself _ p).1, hn]

theorem Shows.trail (h : Shows addr p i)
    (hself : link (tables m (frameOf cr3) 511) = some (frameOf cr3)) :
    trail m cr3 addr = List.replicate (4 - p.length) (tables m (frameOf cr3) 511) ++
      Tables.trail link (tables m) (frameOf cr3) p := by
  rw [Paging.trail, h.path, (trail_window hself _ p).2]

/-- Table `n` at the end of path `p` can be edited through the window. -/
structure Open (wp : Prop) (m : Mem) (cr3 : Nat) (p : List (Fin 512)) (n : Nat) : Prop where
  selfMap : link (tables m (frameOf cr3) 511) = some (frameOf cr3)
  path : tableAt m cr3 p = some n
  window : wp → readWrite (tables m (frameOf cr3) 511) = true
  writable : wp → ∀ e ∈ Tables.trail link (tables m) (frameOf cr3) p, readWrite e = true

variable {wp : Prop}

theorem Open.writableAt (h : Open wp m cr3 p n) (ha : Shows addr p i) (hw : wp) :
    writableAt m cr3 addr = true := by
  unfold Paging.writableAt
  rw [ha.trail h.selfMap, List.all_eq_true]
  intro e he
  rcases List.mem_append.mp he with he | he
  · rw [List.eq_of_mem_replicate he]
    exact h.window hw
  · exact h.writable hw e he

/-- The PML4 itself. -/
theorem Open.root (h : PageTables m cr3) (hw : wp → readWrite (tables m (frameOf cr3) 511) = true) :
    Open wp m cr3 [] (frameOf cr3) :=
  ⟨h.selfMap, rfl, hw, fun _ e he => by cases he⟩

/-- One level further, through a writable entry. -/
theorem Open.step (h : Open wp m cr3 p n) (hl : link (tables m n i) = some k)
    (hw : wp → readWrite (tables m n i) = true) : Open wp m cr3 (p ++ [i]) k := by
  refine ⟨h.selfMap, ?_, h.window, fun hwp e he => ?_⟩
  · rw [tableAt_concat, h.path, Option.bind_some, hl]
  · rw [Tables.trail_concat h.path, List.mem_append, List.mem_singleton] at he
    rcases he with he | he
    · exact h.writable hwp e he
    · rw [he]
      exact hw hwp

/-- A table stays open when the entries on the way to it stay. -/
theorem Open.congr (h : Open wp m cr3 p n)
    (hwin : tables m' (frameOf cr3) 511 = tables m (frameOf cr3) 511)
    (hent : ∀ q j b, q ++ [j] <+: p → tableAt m cr3 q = some b → tables m' b j = tables m b j) :
    Open wp m' cr3 p n := by
  obtain ⟨htrail, hpath⟩ := Tables.trail_congr hent
  refine ⟨?_, ?_, ?_, ?_⟩
  · rw [hwin]
    exact h.selfMap
  · exact hpath.trans h.path
  · rw [hwin]
    exact h.window
  · rw [htrail]
    exact h.writable

/-- A table stays open under edits of a table at or below it. -/
theorem Open.of_edit {p' : List (Fin 512)} {a : Nat} (h : Open wp m cr3 p n) (ht : PageTables m cr3)
    (hp' : tablePaths.mem p') (ha : tableAt m cr3 p' = some a) (hpre : p <+: p')
    (hwin : tables m' (frameOf cr3) 511 = tables m (frameOf cr3) 511)
    (hrows : ∀ b, IsTable m cr3 b → b ≠ a → tables m' b = tables m b) : Open wp m' cr3 p n := by
  refine h.congr hwin fun q j b hq hb => ?_
  have hpre' : q ++ [j] <+: p' := hq.trans hpre
  have hlen := hpre'.length_le
  rw [List.length_append, List.length_singleton] at hlen
  have hmem := tablePaths.mem_of_prefix ((List.prefix_append q [j]).trans hpre') hp'
  refine congrFun (hrows b ⟨q, hmem, hb⟩ ?_) j
  -- tables on the way are not the edited one
  rintro rfl
  have := ht.tree q p' b hmem hp' hb ha
  rw [← this] at hlen
  omega

end Window

/-! ## Reads and stores through the window -/

section Stores

variable {store : Nat → Nat → KernelM Unit} {wp : Prop} {s : Kernel} {cr3 addr n f e e' : Nat}
  {p : List (Fin 512)} {i : Fin 512}

theorem Open.readEntry (h : Open wp s.mem cr3 p n) (hc : s.cr3 = cr3) (ha : Shows addr p i) :
    (readWord addr).Returns s (tables s.mem n i) s := by
  subst hc
  exact Paging.readEntry (ha.translate h.selfMap h.path)

theorem Open.storeEntry (h : Open wp s.mem cr3 p n) (hc : s.cr3 = cr3) (hst : StoresWord store wp)
    (ha : Shows addr p i) (e : Nat) : (store addr e).Returns s () (s.setEntry n i e) := by
  subst hc
  exact hst s addr e _ (ha.translate h.selfMap h.path) (h.writableAt ha)

theorem Open.orEntry (h : Open wp s.mem cr3 p n) (hc : s.cr3 = cr3) (hst : StoresWord store wp)
    (ha : Shows addr p i) (e : Nat) :
    (orWordWith store addr e).Returns s () (s.setEntry n i (tables s.mem n i ||| e)) :=
  (h.readEntry hc ha).bind (h.storeEntry hc hst ha _)

/-- `linkTable` puts a zeroed table behind an entry, whatever the frame held. -/
theorem linkTableWith_spec (hst : StoresWord store wp) (slotAddr : Nat → Nat)
    (hc : s.cr3 = cr3) (h : PageTables s.mem cr3) (hp : tablePaths.mem (p ++ [i]))
    (ho : Open wp s.mem cr3 p n) (hf : ¬IsTable s.mem cr3 f) (he : link e = some f) (hrw : readWrite e = true)
    (hlt : e < 2 ^ 64) (hlt' : e' < 2 ^ 64) (hentry : Shows entryAddr p i)
    (hslot : ∀ k : Fin 512, Shows (slotAddr k) (p ++ [i]) k) :
    ∃ m', (linkTableWith store entryAddr e e' slotAddr).Returns s () { s with mem := m' } ∧
      tables m' = ((tables s.mem).clear f 0).set n i e' := by
  have hp' := tablePaths.init_mem p i hp
  have hn := ho.path
  have hfn : n ≠ f := fun hc => hf ⟨p, hp', by rw [hn, hc]⟩
  have hroot : frameOf cr3 ≠ f := fun hc => hf (hc ▸ isTable_root _ s.mem cr3)
  -- the memory in the loop, with the first `k` entries of the new table zeroed
  let loopMem : Nat → Mem := fun k => zeroSlots (s.mem.store64 (4096 * n + 8 * i) e) f k
  have hrows : ∀ k ≤ 512, ∀ a, a ≠ f → ∀ j,
      tables (loopMem k) a j = (tables s.mem).set n i e a j := by
    intro k hk a ha j
    rw [tables_zeroSlots _ f k hk, if_neg (fun hc => ha hc.1), tables_store64 _ n i hlt]
  have hopen : ∀ k ≤ 512, Open wp (loopMem k) cr3 p n := by
    intro k hk
    refine ho.of_edit h hp' hn List.prefix_rfl ?_ fun b hb hbn => ?_
    · rw [hrows k hk _ hroot, Tables.set_apply_of_ne (ne_window h hp hn)]
    · funext j
      rw [hrows k hk b (fun hc => hf (hc ▸ hb)), Tables.set_apply_of_ne (.inl hbn)]
  have hopen' : ∀ k ≤ 512, Open wp (loopMem k) cr3 (p ++ [i]) f := by
    intro k hk
    have hself : tables (loopMem k) n i = e := by rw [hrows k hk n hfn, Tables.set_apply_self]
    exact (hopen k hk).step (by rw [hself, he]) fun _ => by rw [hself, hrw]
  have hloop : (Outcome.loop 0 512 fun k => store (slotAddr k) 0).Returns
      { s with mem := loopMem 0 } () { s with mem := loopMem 512 } := by
    refine Outcome.returns_loop (fun k => { s with mem := loopMem k }) 0 512 fun k _ hk => ?_
    exact (hopen' k (by omega)).storeEntry (s := { s with mem := loopMem k }) hc hst (hslot ⟨k, by omega⟩) 0
  have hend := (hopen 512 le_rfl).storeEntry (s := { s with mem := loopMem 512 }) hc hst hentry e'
  refine ⟨_, (ho.storeEntry hc hst hentry e).bind (hloop.bind hend), ?_⟩
  show tables ((loopMem 512).store64 (4096 * n + 8 * i) e') = _
  rw [tables_store64 _ n i hlt']
  funext a j
  by_cases hc : a = n ∧ j = i
  · obtain ⟨rfl, rfl⟩ := hc
    rw [Tables.set_apply_self, Tables.set_apply_self]
  · have hc' : a ≠ n ∨ j ≠ i := by
      by_contra hcc
      push Not at hcc
      exact hc hcc
    rw [Tables.set_apply_of_ne hc', Tables.set_apply_of_ne hc']
    by_cases ha : a = f
    · subst ha
      rw [Tables.clear_apply_self, tables_zeroSlots _ a 512 le_rfl, if_pos ⟨rfl, j.isLt⟩]
    · rw [Tables.clear_apply_of_ne ha, hrows 512 le_rfl a ha, Tables.set_apply_of_ne hc']

end Stores

end KoalemOS.Paging
