import KoalemOS.Library.LockOrder

/-!
# The mutexes of memory management

The order in which `src/kernel/memory.c` and `inter_processor_call` (`src/kernel/apic.c`) take
their spin locks. Of the functions only the locking is kept: what they take and release, what
they call, and where they branch or repeat. Whatever a branch of the source depends on, either
side of it may be taken here.

- `Mutex`, `Function`, `Function.body`: the code
- `Mutex.rank`: `virt_mmap`, `heap`, `phys_mmap_ext`, `paging`, `phys_mmap`, `ipcall`
- `memory_no_deadlock`: no circle of processors that wait for each other
-/

namespace KoalemOS.Smp

open KoalemOS.Library

/-- The mutexes memory management takes. -/
inductive Mutex where
  | heap
  | physMmap
  | physMmapExt
  | virtMmap
  | paging
  | ipcall
  deriving DecidableEq

/-- The functions that take them. -/
inductive Function where
  | allocPhysPages
  | freePhysPages
  | virtMmapReduce
  | allocVirtPages
  | freeVirtPages
  | invalidateTlbsFor
  | interProcessorCall
  | mapPage
  | unmapPage
  | createVirtMapping
  | deleteVirtMapping
  | kmalloc
  | krealloc
  | kfree

namespace Function

open LockCode

/-- `if(*ENTRY & PAGING_FLAG_PRESENT) ... else { ... alloc_phys_pages(1) ... }` -/
def ensureTable : LockCode Mutex Function := either skip (call allocPhysPages)

/-- The locking of each function. A `return` is the end of its branch. -/
def body : Function → LockCode Mutex Function
  | allocPhysPages => block [lock .physMmap, unlock .physMmap]
  | freePhysPages => block [lock .physMmap,
      either (unlock .physMmap)
        (block [unlock .physMmap, lock .physMmapExt,
          either (unlock .physMmapExt) (block [call mapPage, unlock .physMmapExt])])]
  | virtMmapReduce => either skip (call krealloc)
  | allocVirtPages => block [lock .virtMmap,
      either (block [call virtMmapReduce, unlock .virtMmap]) (unlock .virtMmap)]
  | freeVirtPages => block [lock .virtMmap,
      either (block [call virtMmapReduce, unlock .virtMmap])
        (block [call krealloc,
          either (unlock .virtMmap) (block [unlock .virtMmap, call freeVirtPages])])]
  | invalidateTlbsFor => call interProcessorCall
  | interProcessorCall => block [lock .ipcall, unlock .ipcall]
  | mapPage => block [lock .paging, ensureTable, ensureTable, ensureTable, call invalidateTlbsFor,
      unlock .paging]
  | unmapPage => block [lock .paging, call invalidateTlbsFor, unlock .paging]
  | createVirtMapping => block [call allocVirtPages, either skip (many (call mapPage))]
  | deleteVirtMapping => block [many (call unmapPage), call freeVirtPages]
  -- a free entry is found, or the heap is extended
  | kmalloc => block [lock .heap,
      either (unlock .heap)
        (block [call allocPhysPages,
          either (unlock .heap) (block [many (call mapPage), unlock .heap])])]
  -- in place, or by `kmalloc` and `kfree`
  | krealloc => block [lock .heap,
      either (unlock .heap)
        (block [unlock .heap, call kmalloc, either skip (call kfree)])]
  | kfree => block [lock .heap,
      either skip (block [call freePhysPages, many (call unmapPage)]), unlock .heap]

end Function

/-- The functions that the rest of the kernel calls. -/
def Function.IsEntry : Function → Prop
  | .kmalloc | .krealloc | .kfree | .createVirtMapping | .deleteVirtMapping => True
  | _ => False

/-- The order in which the mutexes are taken. -/
def Mutex.rank : Mutex → Nat
  | .virtMmap => 0
  | .heap => 1
  | .physMmapExt => 2
  | .paging => 3
  | .physMmap => 4
  | .ipcall => 5

/-- The lowest rank a function may take. -/
def Function.level : Function → Nat
  | .allocVirtPages | .freeVirtPages | .createVirtMapping | .deleteVirtMapping => 0
  | .virtMmapReduce | .kmalloc | .krealloc | .kfree => 1
  | .freePhysPages => 2
  | .mapPage | .unmapPage => 3
  | .allocPhysPages => 4
  | .invalidateTlbsFor | .interProcessorCall => 5

/-- Every function takes its mutexes in this order, and releases them. -/
theorem ordered_body : Ordered Mutex.rank Function.level Function.body := by
  intro f
  cases f <;> decide

theorem Mutex.rank_le (m : Mutex) : m.rank ≤ 5 := by cases m <;> decide

/-- **No deadlock.** However any number of processors interleave their calls of `kmalloc`,
`krealloc`, `kfree`, `create_virt_mapping` and `delete_virt_mapping`: no processors wait in
`mtx_lock` for each other, and none for a mutex that it holds. -/
theorem memory_no_deadlock {P : Type} [DecidableEq P] {s : LockState P Mutex Function}
    (hr : LockReach Function.body Function.IsEntry s) :
    (∀ D : Set P, D.Nonempty → ¬∀ p ∈ D, ∃ m, s.Waits p m ∧ ∃ q ∈ D, s.owner m = some q) ∧
      ∀ p m, s.Waits p m → s.owner m ≠ some p :=
  ⟨fun _ hne => hr.no_deadlock ordered_body Mutex.rank_le hne,
    fun _ _ hw => hr.not_waits_own ordered_body hw⟩

/-- One processor is in `kmalloc`, a second one waits for `heap_mutex`. -/
theorem memory_no_deadlock_kmalloc : ∃ s : LockState Bool Mutex Function,
    s.Waits false .heap ∧ s.owner .heap = some true ∧
      ∀ D : Set Bool, D.Nonempty → ¬∀ p ∈ D, ∃ m, s.Waits p m ∧ ∃ q ∈ D, s.owner m = some q := by
  have h₁ := Relation.ReflTransGen.refl (r := LockStep Function.body Function.IsEntry)
    (a := (LockState.idle : LockState Bool Mutex Function))
  have h₂ := h₁.tail (.start (p := true) (f := Function.kmalloc) rfl trivial)
  have h₃ := h₂.tail (.call (p := true) rfl)
  have h₄ := h₃.tail (.seq (p := true) rfl)
  have h₅ := h₄.tail (.testFree (p := true) rfl rfl)
  have h₆ := h₅.tail (.take (p := true) rfl rfl)
  have h₇ := h₆.tail (.start (p := false) (f := Function.kmalloc) rfl trivial)
  have h₈ := h₇.tail (.call (p := false) rfl)
  have h₉ := h₈.tail (.seq (p := false) rfl)
  exact ⟨_, ⟨_, .inl rfl⟩, rfl, (memory_no_deadlock h₉).1⟩

end KoalemOS.Smp
