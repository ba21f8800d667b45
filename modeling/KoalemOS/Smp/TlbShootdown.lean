import KoalemOS.Paging.EditMoments
import KoalemOS.Paging.SplitPage
import KoalemOS.Smp.AfterBoot

/-!
# TLB shootdown (`src/kernel/memory.c`, `src/kernel/memory.s`)

`map_page` and `unmap_page` edit the page tables under `paging_mutex`, and then have every processor
invalidate the page in its TLB: `invalidate_tlbs_for` stores the address, invalidates it on its own
processor, and makes an inter-processor call of `__invalidate_tlbs`. Meanwhile the processors translate,
and may keep in their TLBs whatever translation there is at that moment.

- `Job`: where a processor is in `map_page` or `unmap_page`
- `TlbStep`: one access of the editor, a step of an inter-processor call, a TLB that takes or drops an entry
- `TlbInv`: what holds in every state

All processors have the page tables of `cr3`. A TLB holds the leaf entries of pages outside the window
slot; the entries above, and the rights they give, are left out. Of memory there is what the tables need.
-/

namespace KoalemOS.Smp

open KoalemOS.Library KoalemOS.Paging

/-! ## The code -/

/-- What runs between `mtx_lock` and `invalidate_tlbs_for`. -/
def editSteps : PageOp → EditM Unit
  | .mapPage v p flags => mapPageSteps v p flags
  | .unmapPage v => unmapPageSteps v

/-- Where a processor is in `map_page` or `unmap_page`. -/
inductive Job where
  | idle
  /-- `mtx_lock(&paging_mutex)`: before the test, before the exchange -/
  | lockTest (op : PageOp)
  | lockXchg (op : PageOp)
  /-- `rest` of the edit is still to be done. -/
  | editing (op : PageOp) (rest : EditM Unit)
  /-- `invalidate_tlbs_for`, before the store of `__invld_tlbs_addr` -/
  | setAddr (op : PageOp)
  /-- before `__invalidate_tlbs()` -/
  | invalidate (op : PageOp)
  /-- before `inter_processor_call(__invalidate_tlbs)` -/
  | startCall (op : PageOp)
  | calling (op : PageOp)
  /-- before `mtx_unlock(&paging_mutex)` -/
  | unlock (op : PageOp)
  /-- `kernel_panic`, with the mutex held -/
  | halted (op : PageOp)

/-- The processor has `paging_mutex`, for an edit. -/
def Job.edits : Job → Option PageOp
  | .idle | .lockTest _ | .lockXchg _ => none
  | .editing op _ | .setAddr op | .invalidate op | .startCall op | .calling op | .unlock op | .halted op => some op

/-- The processors, what they share, and their TLBs: a leaf entry by the number of a page. -/
structure TlbState (P : Type) where
  mem : Mem
  calls : State P Unit
  pagingMutex : Bool
  invldTlbsAddr : Nat
  job : P → Job
  tlb : P → Nat → Option (Nat × Nat)
  /-- Ghost: the calls that have returned. -/
  returned : List PageOp

section System

variable {P : Type} [DecidableEq P]

/-- Processor `p` goes on. -/
def TlbState.goto (s : TlbState P) (p : P) (j : Job) : TlbState P := { s with job := Function.update s.job p j }

/-- The TLB of processor `q` has `e` for page number `n`. -/
def TlbState.setTlb (s : TlbState P) (q : P) (n : Nat) (e : Option (Nat × Nat)) : TlbState P :=
  { s with tlb := Function.update s.tlb q (Function.update (s.tlb q) n e) }

/-- The page is one of `known`, or an edit of it has returned. -/
def TlbState.Known (known : Nat → Prop) (s : TlbState P) (w : Nat) : Prop :=
  known w ∨ ∃ op ∈ s.returned, op.page / 4096 = w / 4096

/-- What a caller owes: pages that can be edited, and that have a page table when they are to be unmapped. -/
def EditOk (editable known : Nat → Prop) (s : TlbState P) : PageOp → Prop
  | .mapPage v p flags => editable v ∧ p < 2 ^ 64 ∧ AttributeBits flags
  | .unmapPage v => editable v ∧ s.Known known v

variable (bsp : P) (apCount : UInt16) (cr3 : Nat) (editable known : Nat → Prop)

/-- The transitions. A processor goes on in `map_page` or `unmap_page` while its interrupt handler does not
run. -/
inductive TlbStep : TlbState P → TlbState P → Prop where
  /-- `map_page` or `unmap_page` is called. -/
  | start {s : TlbState P} {p : P} (op : PageOp) (hj : s.job p = .idle) (hi : s.calls.isr p = .idle)
      (hop : EditOk editable known s op) : TlbStep s (s.goto p (.lockTest op))
  /-- `mtx_lock`: the load finds the mutex free. -/
  | lockTest {s : TlbState P} {p : P} {op : PageOp} (hj : s.job p = .lockTest op) (hi : s.calls.isr p = .idle)
      (hm : s.pagingMutex = false) : TlbStep s (s.goto p (.lockXchg op))
  /-- `mtx_lock`: the exchange finds the mutex taken, back to the load. -/
  | lockRetry {s : TlbState P} {p : P} {op : PageOp} (hj : s.job p = .lockXchg op) (hi : s.calls.isr p = .idle)
      (hm : s.pagingMutex = true) : TlbStep s (s.goto p (.lockTest op))
  /-- `mtx_lock`: the exchange takes the mutex. -/
  | lockXchg {s : TlbState P} {p : P} {op : PageOp} (hj : s.job p = .lockXchg op) (hi : s.calls.isr p = .idle)
      (hm : s.pagingMutex = false) :
      TlbStep s { s.goto p (.editing op (editSteps op)) with pagingMutex := true }
  /-- One access of the editor. -/
  | access {s : TlbState P} {p : P} {op : PageOp} {o : TableOp} {k : o.Answer → EditM Unit} {r : o.Answer}
      {m : Mem} (hj : s.job p = .editing op (.op o k)) (hi : s.calls.isr p = .idle) (ho : o.step cr3 s.mem r m) :
      TlbStep s { s.goto p (.editing op (k r)) with mem := m }
  /-- `kernel_panic` -/
  | panic {s : TlbState P} {p : P} {op : PageOp} {reason : Stop} (hj : s.job p = .editing op (.stop reason))
      (hi : s.calls.isr p = .idle) : TlbStep s (s.goto p (.halted op))
  /-- The page tables are as they are to be. -/
  | edited {s : TlbState P} {p : P} {op : PageOp} (hj : s.job p = .editing op (.ret ()))
      (hi : s.calls.isr p = .idle) : TlbStep s (s.goto p (.setAddr op))
  /-- `__invld_tlbs_addr = vaddr` -/
  | setAddr {s : TlbState P} {p : P} {op : PageOp} (hj : s.job p = .setAddr op) (hi : s.calls.isr p = .idle) :
      TlbStep s { s.goto p (.invalidate op) with invldTlbsAddr := op.page }
  /-- `__invalidate_tlbs()` -/
  | invalidate {s : TlbState P} {p : P} {op : PageOp} (hj : s.job p = .invalidate op)
      (hi : s.calls.isr p = .idle) :
      TlbStep s ((s.setTlb p (s.invldTlbsAddr / 4096) none).goto p (.startCall op))
  /-- `inter_processor_call(__invalidate_tlbs)` is called. -/
  | startCall {s : TlbState P} {p : P} {op : PageOp} {c : State P Unit} (hj : s.job p = .startCall op)
      (hi : s.calls.isr p = .idle) (hl : s.calls.loc p = .running)
      (hc : c = { s.calls.goto p (.inCall .lockTest ⟨(), s.calls.nextCall, false⟩) with
        nextCall := s.calls.nextCall + 1 }) :
      TlbStep s { s.goto p (.calling op) with calls := c }
  /-- An inter-processor call goes on: the caller, or a handler that does not run the function. -/
  | call {s : TlbState P} {c : State P Unit} (hc : Step bsp apCount s.calls c)
      (hnext : c.nextCall = s.calls.nextCall) (hruns : c.runs = s.calls.runs) :
      TlbStep s { s with calls := c }
  /-- A handler runs `__invalidate_tlbs`. -/
  | handler {s : TlbState P} {q : P} {id : Nat} {c : State P Unit} (hi : s.calls.isr q = .loaded id ())
      (hc : c = { s.calls.gotoIsr q (.ran id) with runs := s.calls.runs ++ [⟨q, id, ()⟩] }) :
      TlbStep s { s.setTlb q (s.invldTlbsAddr / 4096) none with calls := c }
  /-- `inter_processor_call` returns. -/
  | called {s : TlbState P} {p : P} {op : PageOp} (hj : s.job p = .calling op) (hi : s.calls.isr p = .idle)
      (hl : s.calls.loc p = .running) : TlbStep s (s.goto p (.unlock op))
  /-- `mtx_unlock`, and the call returns. -/
  | unlock {s : TlbState P} {p : P} {op : PageOp} (hj : s.job p = .unlock op) (hi : s.calls.isr p = .idle) :
      TlbStep s { s.goto p .idle with pagingMutex := false, returned := s.returned ++ [op] }
  /-- A processor translates an address and keeps the translation. -/
  | fill {s : TlbState P} (q : P) {w : Nat} {leaf : Nat × Nat} (hw : index w 39 ≠ 511)
      (hwalk : walk s.mem cr3 w = some leaf) : TlbStep s (s.setTlb q (w / 4096) (some leaf))
  /-- A TLB drops an entry. -/
  | evict {s : TlbState P} (q : P) (n : Nat) : TlbStep s (s.setTlb q n none)

/-- Any number of steps. -/
abbrev TlbSteps : TlbState P → TlbState P → Prop :=
  Relation.ReflTransGen (TlbStep bsp apCount cr3 editable known)

/-! ## The invariant -/

/-- What the TLB of `q` has for the page of `w` is what the page tables say. -/
def FreshAt (s : TlbState P) (q : P) (w : Nat) : Prop :=
  ∀ leaf, s.tlb q (w / 4096) = some leaf → walk s.mem cr3 w = some leaf

/-- The start: all processors are past the barrier and none edits. -/
structure TlbStart [Fintype P] (s : TlbState P) : Prop where
  calls : AfterBoot s.calls
  jobs : ∀ p, s.job p = .idle
  unlocked : s.pagingMutex = false
  returned : s.returned = []
  pageTables : PageTables s.mem cr3
  editable : ∀ v, editable v → UserPage v ∧ NoLargePage s.mem cr3 v
  known : ∀ w, known w → index w 39 ≠ 511 ∧ InTables s.mem cr3 w ∧ ∀ q, FreshAt cr3 s q w

/-- The map of the calls that have returned, on top of the map at the start. -/
def TlbState.pageMap (M : PageMap) (s : TlbState P) : PageMap := s.returned.foldl PageOp.apply M

/-- Page tables that nobody edits: what they map is `M`, and they have the pages in `T`. -/
structure Settled (M : PageMap) (T : Nat → Prop) (m : Mem) : Prop where
  pageTables : PageTables m cr3
  noLarge : ∀ v, editable v → NoLargePage m cr3 v
  map : ∀ w, index w 39 ≠ 511 → walk m cr3 w = M w
  inTables : ∀ w, index w 39 ≠ 511 → T w → InTables m cr3 w

/-- The known pages but that of `v` are fresh in all TLBs. -/
def FreshBut (s : TlbState P) (v : Nat) : Prop :=
  ∀ w, index w 39 ≠ 511 → s.Known known w → w / 4096 ≠ v / 4096 → ∀ q, FreshAt cr3 s q w

/-- The edit is done, the call has not returned. -/
structure EditDone (M : PageMap) (s : TlbState P) (op : PageOp) : Prop where
  canEdit : editable op.page
  settled : Settled cr3 editable (op.apply (s.pageMap M))
    (fun w => s.Known known w ∨ op.page / 4096 = w / 4096) s.mem
  others : FreshBut cr3 known s op.page

/-- How far the call of `__invalidate_tlbs` by `p` is with the page of `v`. -/
def Served (s : TlbState P) (p : P) (v : Nat) : Prop :=
  (∃ st c, s.calls.loc p = .inCall st c ∧ (∀ q, s.calls.runsOf q c.id ≠ [] → FreshAt cr3 s q v) ∧
      (st = .unlock → ∀ q, FreshAt cr3 s q v)) ∨
    s.calls.loc p = .running ∧ ∀ q, FreshAt cr3 s q v

/-- What holds while `p` is in `map_page` or `unmap_page`. -/
def JobInv (M : PageMap) (s : TlbState P) (p : P) : Job → Prop
  | .idle | .lockTest _ | .lockXchg _ => True
  | .editing op rest => editable op.page ∧ ∃ m₀, Settled cr3 editable (s.pageMap M) (s.Known known) m₀ ∧
      rest.Moments (TableOp.step cr3) (Steady cr3 op.page m₀)
        (fun _ m => Settled cr3 editable (op.apply (s.pageMap M))
          (fun w => s.Known known w ∨ op.page / 4096 = w / 4096) m) s.mem ∧
      FreshBut cr3 known s op.page
  | .halted op => ∃ m₀, Settled cr3 editable (s.pageMap M) (s.Known known) m₀ ∧
      Steady cr3 op.page m₀ s.mem ∧ FreshBut cr3 known s op.page
  | .setAddr op => EditDone cr3 editable known M s op
  | .invalidate op => EditDone cr3 editable known M s op ∧ s.invldTlbsAddr = op.page
  | .startCall op => EditDone cr3 editable known M s op ∧ s.invldTlbsAddr = op.page ∧ FreshAt cr3 s p op.page
  | .calling op => EditDone cr3 editable known M s op ∧ s.invldTlbsAddr = op.page ∧ FreshAt cr3 s p op.page ∧
      Served cr3 s p op.page
  | .unlock op => EditDone cr3 editable known M s op ∧ ∀ q, FreshAt cr3 s q op.page

/-- The invariant. -/
structure TlbInv [Fintype P] (M : PageMap) (s : TlbState P) : Prop where
  calls : Inv s.calls
  callers : ∀ p, s.calls.loc p ≠ .running → ∃ op, s.job p = .calling op
  waiting : ∀ p op, s.job p = .lockTest op ∨ s.job p = .lockXchg op → EditOk editable known s op
  free : s.pagingMutex = false → (∀ p, (s.job p).edits = none) ∧
    Settled cr3 editable (s.pageMap M) (s.Known known) s.mem ∧
    ∀ w, index w 39 ≠ 511 → s.Known known w → ∀ q, FreshAt cr3 s q w
  taken : s.pagingMutex = true → ∃ p, (s.job p).edits ≠ none ∧ (∀ q, q ≠ p → (s.job q).edits = none) ∧
    JobInv cr3 editable known M s p (s.job p)

end System

/-! ## Pages and their edits -/

section Pages

variable {cr3 v w pte : Nat} {m m₀ : Mem} {editable : Nat → Prop} {M : PageMap} {T : Nat → Prop}

theorem walk_of_same_page (m : Mem) (cr3 : Nat) (h : v / 4096 = w / 4096) : walk m cr3 v = walk m cr3 w := by
  rw [walk, walk, canonical_of_same_page h, indices_of_same_page h]

theorem InTables.of_same_page (hin : InTables m cr3 v) (h : v / 4096 = w / 4096) : InTables m cr3 w := by
  refine hin.imp ?_ ?_
  · rw [ptAt, ptAt, index_of_same_page h (show 12 ≤ 39 by decide), index_of_same_page h (show 12 ≤ 30 by decide),
      index_of_same_page h (show 12 ≤ 21 by decide)]
    exact id
  · rw [walk_of_same_page m cr3 h]
    exact id

/-- An edit of settled page tables. -/
theorem Settled.edited {op : PageOp} (h : Settled cr3 editable M T m₀) (hv : ∀ v, editable v → UserPage v)
    (he : PageEdited cr3 op.page pte m₀ m) (hleaf : (if present pte then some (pte, 12) else none) = op.leaf) :
    Settled cr3 editable (op.apply M) (fun w => T w ∨ op.page / 4096 = w / 4096) m where
  pageTables := he.pageTables
  noLarge v hu := he.noLarge v (hv v hu).slot (h.noLarge v hu)
  map w hw := by
    unfold PageOp.apply
    split_ifs with hpage
    · rw [he.self w hpage, hleaf]
    · rw [he.others w hw hpage, h.map w hw]
  inTables w hw hT := by
    by_cases hpage : op.page / 4096 = w / 4096
    · exact InTables.of_same_page (.inl he.table) hpage
    · have hin := h.inTables w hw (hT.resolve_right hpage)
      exact he.steady.inTables hw (Ne.symm hpage) hin

/-- The edit of a call, moment by moment. -/
theorem Settled.moments {op : PageOp} {known : Nat → Prop} {P : Type} {s : TlbState P}
    (h : Settled cr3 editable M (s.Known known) m) (hv : ∀ v, editable v → UserPage v)
    (hop : EditOk editable known s op) :
    (editSteps op).Moments (TableOp.step cr3) (Steady cr3 op.page m)
      (fun _ => Settled cr3 editable (op.apply M) (fun w => s.Known known w ∨ op.page / 4096 = w / 4096)) m := by
  cases op with
  | mapPage v p flags =>
    obtain ⟨hedit, hp, hflags⟩ := hop
    refine (mapPage_moments h.pageTables (hv v hedit) (h.noLarge v hedit) hp hflags).mono (fun _ => id)
      fun _ t ht => h.edited hv ht ?_
    have hpres : present (p ||| pagingFlagPresent ||| flags) = true := by
      rw [present_or, present_or, show present pagingFlagPresent = true from rfl]
      simp
    rw [if_pos hpres]
    rfl
  | unmapPage v =>
    obtain ⟨hedit, hknown⟩ := hop
    obtain ⟨n, hn⟩ := (h.inTables v (hv v hedit).slot hknown).table (h.noLarge v hedit)
    exact (unmapPage_moments h.pageTables (hv v hedit) hn).mono (fun _ => id) fun _ t ht => h.edited hv ht rfl

end Pages

/-! ## What the invariant depends on -/

section Congruence

variable {P : Type} {cr3 : Nat} {editable known : Nat → Prop} {M : PageMap} {s s' : TlbState P} {p : P} {op : PageOp}

/-- From `s` to `s'` the page tables stay and the TLBs take nothing that is not in them. -/
structure Fresher (cr3 : Nat) (s s' : TlbState P) : Prop where
  mem : s'.mem = s.mem
  returned : s'.returned = s.returned
  addr : s'.invldTlbsAddr = s.invldTlbsAddr
  tlb : ∀ q n leaf, s'.tlb q n = some leaf →
    s.tlb q n = some leaf ∨ ∀ w, w / 4096 = n → walk s.mem cr3 w = some leaf

theorem Fresher.freshAt (h : Fresher cr3 s s') {q : P} {w : Nat} (hq : FreshAt cr3 s q w) : FreshAt cr3 s' q w := by
  intro leaf hleaf
  rw [h.mem]
  exact (h.tlb q _ leaf hleaf).elim (hq leaf) fun hw => hw w rfl

theorem Fresher.known_iff (h : Fresher cr3 s s') {w : Nat} : s'.Known known w ↔ s.Known known w := by
  unfold TlbState.Known
  rw [h.returned]

theorem Fresher.pageMap (h : Fresher cr3 s s') : s'.pageMap M = s.pageMap M := by
  unfold TlbState.pageMap
  rw [h.returned]

theorem Fresher.freshBut (h : Fresher cr3 s s') {v : Nat} (hb : FreshBut cr3 known s v) :
    FreshBut cr3 known s' v :=
  fun w hw hk hne q => h.freshAt (hb w hw (h.known_iff.mp hk) hne q)

theorem Fresher.known_eq (h : Fresher cr3 s s') : s'.Known known = s.Known known :=
  funext fun _ => propext h.known_iff

theorem Fresher.editDone (h : Fresher cr3 s s') (hd : EditDone cr3 editable known M s op) :
    EditDone cr3 editable known M s' op := by
  refine ⟨hd.canEdit, ?_, h.freshBut hd.others⟩
  rw [h.mem, h.pageMap, h.known_eq]
  exact hd.settled

theorem EditOk.congr (hop : EditOk editable known s op) (hret : s'.returned = s.returned) :
    EditOk editable known s' op := by
  cases op with
  | mapPage => exact hop
  | unmapPage v =>
    refine ⟨hop.1, ?_⟩
    unfold TlbState.Known
    rw [hret]
    exact hop.2

variable [DecidableEq P]

/-- The invariant of a job survives where the page tables stay. -/
theorem Fresher.jobInv (h : Fresher cr3 s s') {j : Job} (hj : JobInv cr3 editable known M s p j)
    (hserved : ∀ op, j = .calling op → s.invldTlbsAddr = op.page → FreshAt cr3 s p op.page →
      Served cr3 s p op.page → Served cr3 s' p op.page) : JobInv cr3 editable known M s' p j := by
  cases j with
  | idle | lockTest | lockXchg => trivial
  | editing op rest =>
    obtain ⟨hcan, m₀, hset, hmom, hbut⟩ := hj
    refine ⟨hcan, m₀, ?_, ?_, h.freshBut hbut⟩
    · rw [h.pageMap, h.known_eq]
      exact hset
    · rw [h.mem, h.pageMap, h.known_eq]
      exact hmom
  | halted op =>
    obtain ⟨m₀, hset, hsteady, hbut⟩ := hj
    refine ⟨m₀, ?_, ?_, h.freshBut hbut⟩
    · rw [h.pageMap, h.known_eq]
      exact hset
    · rw [h.mem]
      exact hsteady
  | setAddr op => exact h.editDone hj
  | invalidate op => exact ⟨h.editDone hj.1, h.addr.trans hj.2⟩
  | startCall op => exact ⟨h.editDone hj.1, h.addr.trans hj.2.1, h.freshAt hj.2.2⟩
  | calling op =>
    obtain ⟨hd, ha, hf, hs⟩ := hj
    exact ⟨h.editDone hd, h.addr.trans ha, h.freshAt hf, hserved op rfl ha hf hs⟩
  | unlock op => exact ⟨h.editDone hj.1, fun q => h.freshAt (hj.2 q)⟩

theorem Fresher.served (h : Fresher cr3 s s') (hcalls : s'.calls = s.calls) {v : Nat} (hs : Served cr3 s p v) :
    Served cr3 s' p v := by
  unfold Served
  rw [hcalls]
  rcases hs with ⟨st, c, hl, hruns, hun⟩ | ⟨hl, hall⟩
  · exact .inl ⟨st, c, hl, fun q hq => h.freshAt (hruns q hq), fun hst q => h.freshAt (hun hst q)⟩
  · exact .inr ⟨hl, fun q => h.freshAt (hall q)⟩

end Congruence

/-! ## Steps -/

section Preservation

variable {P : Type} [DecidableEq P] [Fintype P] {bsp : P} {apCount : UInt16} {cr3 : Nat} {editable known : Nat → Prop}
  {M : PageMap} {s s' : TlbState P} {p : P} {op : PageOp} {j : Job}

/-- The processor that edits is alone. -/
theorem TlbInv.holder (h : TlbInv cr3 editable known M s) (he : (s.job p).edits ≠ none) :
    s.pagingMutex = true ∧ (∀ q, q ≠ p → (s.job q).edits = none) ∧ JobInv cr3 editable known M s p (s.job p) := by
  have hm : s.pagingMutex = true := by
    by_contra hc
    exact he ((h.free (by simpa using hc)).1 p)
  obtain ⟨p', he', halone, hinv⟩ := h.taken hm
  have hpp : p = p' := by
    by_contra hc
    exact he (halone p hc)
  subst hpp
  exact ⟨hm, halone, hinv⟩

/-- A processor that is not in an inter-processor call runs other code. -/
theorem TlbInv.running (h : TlbInv cr3 editable known M s) (hj : ∀ op, s.job p ≠ .calling op) :
    s.calls.loc p = .running := by
  by_contra hc
  obtain ⟨op, hop⟩ := h.callers p hc
  exact hj op hop

/-- A step of a processor that has the mutex. -/
theorem TlbInv.of_holder (h : TlbInv cr3 editable known M s) (hp : (s.job p).edits ≠ none) (hj : j.edits ≠ none)
    (hjob : s'.job = Function.update s.job p j) (hmutex : s'.pagingMutex = s.pagingMutex)
    (hret : s'.returned = s.returned) (hcalls : Inv s'.calls)
    (hcallers : ∀ q, q ≠ p → s'.calls.loc q = s.calls.loc q)
    (hcaller : s'.calls.loc p = .running ∨ ∃ op, j = .calling op)
    (hinv : JobInv cr3 editable known M s' p j) : TlbInv cr3 editable known M s' := by
  obtain ⟨hm, halone, -⟩ := h.holder hp
  have hself : s'.job p = j := by rw [hjob, Function.update_self]
  have hother : ∀ q, q ≠ p → s'.job q = s.job q := fun q hq => by rw [hjob, Function.update_of_ne hq]
  refine ⟨hcalls, fun q hq => ?_, fun q op hq => ?_, fun hfree => ?_, fun _ => ⟨p, ?_, fun q hq => ?_, ?_⟩⟩
  · by_cases hqp : q = p
    · subst hqp
      rw [hself]
      exact hcaller.resolve_left hq
    · rw [hother q hqp]
      rw [hcallers q hqp] at hq
      exact h.callers q hq
  · by_cases hqp : q = p
    · subst hqp
      rw [hself] at hq
      rcases hq with rfl | rfl <;> exact absurd rfl hj
    · rw [hother q hqp] at hq
      exact (h.waiting q op hq).congr hret
  · rw [hmutex, hm] at hfree
    cases hfree
  · rw [hself]
    exact hj
  · rw [hother q hq]
    exact halone q hq
  · rw [hself]
    exact hinv

/-- A step of a processor that has the mutex, outside its inter-processor call. -/
theorem TlbInv.of_holder' (h : TlbInv cr3 editable known M s) (hp : (s.job p).edits ≠ none) (hj : j.edits ≠ none)
    (hnot : ∀ op, s.job p ≠ .calling op) (hjob : s'.job = Function.update s.job p j)
    (hmutex : s'.pagingMutex = s.pagingMutex) (hret : s'.returned = s.returned) (hcalls : s'.calls = s.calls)
    (hinv : JobInv cr3 editable known M s' p j) : TlbInv cr3 editable known M s' := by
  refine h.of_holder hp hj hjob hmutex hret ?_ (fun q _ => by rw [hcalls]) (.inl ?_) hinv
  · rw [hcalls]
    exact h.calls
  · rw [hcalls]
    exact h.running hnot

/-- A step of a processor that has not got the mutex. -/
theorem TlbInv.of_waiting (h : TlbInv cr3 editable known M s) (hp : (s.job p).edits = none) (hj : j.edits = none)
    (hop : ∀ op, j = .lockTest op ∨ j = .lockXchg op → EditOk editable known s op) :
    TlbInv cr3 editable known M (s.goto p j) := by
  have hother : ∀ q, q ≠ p → (s.goto p j).job q = s.job q := fun q hq => Function.update_of_ne hq _ _
  have hself : (s.goto p j).job p = j := Function.update_self _ _ _
  have hedits : ∀ q, ((s.goto p j).job q).edits = (s.job q).edits := fun q => by
    by_cases hqp : q = p
    · subst hqp
      rw [hself, hj, hp]
    · rw [hother q hqp]
  refine ⟨h.calls, fun q hq => ?_, fun q op hq => ?_, fun hfree => ?_, fun htaken => ?_⟩
  · obtain ⟨op, hq'⟩ := h.callers q hq
    refine ⟨op, ?_⟩
    rw [hother q ?_, hq']
    rintro rfl
    rw [hq'] at hp
    cases hp
  · by_cases hqp : q = p
    · subst hqp
      rw [hself] at hq
      exact (hop op hq).congr rfl
    · rw [hother q hqp] at hq
      exact (h.waiting q op hq).congr rfl
  · obtain ⟨hnone, hrest⟩ := h.free hfree
    exact ⟨fun q => (hedits q).trans (hnone q), hrest⟩
  · obtain ⟨q, hq, halone, hinv⟩ := h.taken htaken
    have hqp : q ≠ p := by
      rintro rfl
      exact hq hp
    refine ⟨q, fun hc => hq ((hedits q).symm.trans hc), fun r hr => (hedits r).trans (halone r hr), ?_⟩
    rw [hother q hqp]
    have hsame : Fresher cr3 s (s.goto p j) := ⟨rfl, rfl, rfl, fun _ _ _ hl => .inl hl⟩
    exact hsame.jobInv hinv fun _ _ _ _ hs => hsame.served rfl hs

/-- A step of the inter-processor calls or of the TLBs. -/
theorem TlbInv.of_fresher (h : TlbInv cr3 editable known M s) (hf : Fresher cr3 s s') (hjob : s'.job = s.job)
    (hmutex : s'.pagingMutex = s.pagingMutex) (hcalls : Inv s'.calls)
    (hcallers : ∀ q, s.calls.loc q = .running → s'.calls.loc q = .running)
    (hserved : ∀ p op, s.job p = .calling op → s.invldTlbsAddr = op.page → FreshAt cr3 s p op.page →
      Served cr3 s p op.page → Served cr3 s' p op.page) : TlbInv cr3 editable known M s' := by
  refine ⟨hcalls, fun q hq => ?_, fun q op hq => ?_, fun hfree => ?_, fun htaken => ?_⟩
  · rw [hjob]
    exact h.callers q fun hr => hq (hcallers q hr)
  · rw [hjob] at hq
    exact (h.waiting q op hq).congr hf.returned
  · rw [hmutex] at hfree
    obtain ⟨hnone, hset, hfresh⟩ := h.free hfree
    refine ⟨by rw [hjob]; exact hnone, ?_, fun w hw hk q => hf.freshAt (hfresh w hw (hf.known_iff.mp hk) q)⟩
    rw [hf.mem, hf.pageMap, hf.known_eq]
    exact hset
  · rw [hmutex] at htaken
    obtain ⟨p, hp, halone, hinv⟩ := h.taken htaken
    refine ⟨p, by rw [hjob]; exact hp, by rw [hjob]; exact halone, ?_⟩
    rw [hjob]
    exact hf.jobInv hinv (hserved p)

/-- The exchange takes the mutex: the page tables are settled. -/
theorem TlbInv.lockXchg (h : TlbInv cr3 editable known M s) (hv : ∀ v, editable v → UserPage v)
    (hj : s.job p = .lockXchg op) (hm : s.pagingMutex = false) :
    TlbInv cr3 editable known M { s.goto p (.editing op (editSteps op)) with pagingMutex := true } := by
  obtain ⟨hnone, hset, hfresh⟩ := h.free hm
  have hop := h.waiting p op (.inr hj)
  have hother : ∀ q, q ≠ p → (s.goto p (.editing op (editSteps op))).job q = s.job q := fun q hq =>
    Function.update_of_ne hq _ _
  have hself : (s.goto p (.editing op (editSteps op))).job p = .editing op (editSteps op) :=
    Function.update_self _ _ _
  have hcan : editable op.page := by
    cases op with
    | mapPage => exact hop.1
    | unmapPage => exact hop.1
  refine ⟨h.calls, fun q hq => ?_, fun q op' hq => ?_, fun hfree => (by cases hfree),
    fun _ => ⟨p, ?_, fun q hq => ?_, ?_⟩⟩
  · obtain ⟨op', hq'⟩ := h.callers q hq
    refine ⟨op', ?_⟩
    show (s.goto p _).job q = _
    rw [hother q ?_, hq']
    rintro rfl
    rw [hq'] at hj
    cases hj
  · change (s.goto p _).job q = _ ∨ (s.goto p _).job q = _ at hq
    by_cases hqp : q = p
    · subst hqp
      rw [hself] at hq
      rcases hq with hq | hq <;> cases hq
    · rw [hother q hqp] at hq
      exact (h.waiting q op' hq).congr rfl
  · show ((s.goto p _).job p).edits ≠ none
    rw [hself]
    simp [Job.edits]
  · show ((s.goto p _).job q).edits = none
    rw [hother q hq]
    exact hnone q
  · show JobInv cr3 editable known M _ p ((s.goto p _).job p)
    rw [hself]
    exact ⟨hcan, s.mem, hset, hset.moments hv hop, fun w hw hk _ q => hfresh w hw hk q⟩

/-- One access of the editor: the known pages do not notice. -/
theorem TlbInv.access (h : TlbInv cr3 editable known M s) {o : TableOp} {k : o.Answer → EditM Unit} {r : o.Answer}
    {m : Mem} (hj : s.job p = .editing op (.op o k)) (ho : o.step cr3 s.mem r m) :
    TlbInv cr3 editable known M { s.goto p (.editing op (k r)) with mem := m } := by
  have hp : (s.job p).edits ≠ none := by
    rw [hj]
    simp [Job.edits]
  obtain ⟨-, -, hinv⟩ := h.holder hp
  rw [hj] at hinv
  obtain ⟨hcan, m₀, hset, hmom, hbut⟩ := hinv
  have hnext := hmom.next ho
  refine h.of_holder' hp (by simp [Job.edits]) (by simp [hj]) rfl rfl rfl rfl ⟨hcan, m₀, hset, hnext, ?_⟩
  intro w hw hk hne q leaf hleaf
  have hin := hset.inTables w hw hk
  have hwalk := hbut w hw hk hne q leaf hleaf
  show walk m cr3 w = some leaf
  rw [hnext.now.walk w hw hne hin, ← hmom.now.walk w hw hne hin, hwalk]

/-- `kernel_panic` -/
theorem TlbInv.panic (h : TlbInv cr3 editable known M s) {reason : Stop} (hj : s.job p = .editing op (.stop reason)) :
    TlbInv cr3 editable known M (s.goto p (.halted op)) := by
  have hp : (s.job p).edits ≠ none := by
    rw [hj]
    simp [Job.edits]
  obtain ⟨-, -, hinv⟩ := h.holder hp
  rw [hj] at hinv
  obtain ⟨-, m₀, hset, hmom, hbut⟩ := hinv
  exact h.of_holder' hp (by simp [Job.edits]) (by simp [hj]) rfl rfl rfl rfl ⟨m₀, hset, hmom.now, hbut⟩

/-- The last access is done. -/
theorem TlbInv.edited (h : TlbInv cr3 editable known M s) (hj : s.job p = .editing op (.ret ())) :
    TlbInv cr3 editable known M (s.goto p (.setAddr op)) := by
  have hp : (s.job p).edits ≠ none := by
    rw [hj]
    simp [Job.edits]
  obtain ⟨-, -, hinv⟩ := h.holder hp
  rw [hj] at hinv
  obtain ⟨hcan, m₀, hset, hmom, hbut⟩ := hinv
  exact h.of_holder' hp (by simp [Job.edits]) (by simp [hj]) rfl rfl rfl rfl ⟨hcan, hmom.last, hbut⟩

/-- `__invld_tlbs_addr = vaddr` -/
theorem TlbInv.setAddr (h : TlbInv cr3 editable known M s) (hj : s.job p = .setAddr op) :
    TlbInv cr3 editable known M { s.goto p (.invalidate op) with invldTlbsAddr := op.page } := by
  have hp : (s.job p).edits ≠ none := by
    rw [hj]
    simp [Job.edits]
  obtain ⟨-, -, hinv⟩ := h.holder hp
  rw [hj] at hinv
  obtain ⟨hcan, hset, hbut⟩ := hinv
  exact h.of_holder' hp (by simp [Job.edits]) (by simp [hj]) rfl rfl rfl rfl ⟨⟨hcan, hset, hbut⟩, rfl⟩

omit [Fintype P] in
/-- Dropping an entry. -/
theorem fresher_drop (cr3 : Nat) (s : TlbState P) (q : P) (n : Nat) : Fresher cr3 s (s.setTlb q n none) := by
  refine ⟨rfl, rfl, rfl, fun r k leaf hleaf => .inl ?_⟩
  by_cases hr : r = q
  · subst hr
    by_cases hk : k = n
    · simp [TlbState.setTlb, hk] at hleaf
    · simpa [TlbState.setTlb, hk] using hleaf
  · simpa [TlbState.setTlb, hr] using hleaf

omit [Fintype P] in
/-- A dropped entry is fresh. -/
theorem freshAt_drop (cr3 : Nat) (s : TlbState P) (q : P) (w : Nat) :
    FreshAt cr3 (s.setTlb q (w / 4096) none) q w := by
  intro leaf hleaf
  simp [TlbState.setTlb] at hleaf

/-- `__invalidate_tlbs()` on the processor itself. -/
theorem TlbInv.invalidate (h : TlbInv cr3 editable known M s) (hj : s.job p = .invalidate op) :
    TlbInv cr3 editable known M ((s.setTlb p (s.invldTlbsAddr / 4096) none).goto p (.startCall op)) := by
  have hp : (s.job p).edits ≠ none := by
    rw [hj]
    simp [Job.edits]
  obtain ⟨-, -, hinv⟩ := h.holder hp
  rw [hj] at hinv
  obtain ⟨hdone, haddr⟩ := hinv
  have hf := fresher_drop cr3 s p (s.invldTlbsAddr / 4096)
  obtain ⟨hcan, hset, hbut⟩ := hf.editDone hdone
  refine h.of_holder' hp (by simp [Job.edits]) (by simp [hj]) rfl rfl rfl rfl ⟨⟨hcan, hset, hbut⟩, haddr, ?_⟩
  rw [haddr]
  exact freshAt_drop cr3 s p op.page

/-- `inter_processor_call` is called. -/
theorem TlbInv.startCall (h : TlbInv cr3 editable known M s) (hj : s.job p = .startCall op)
    (hi : s.calls.isr p = .idle) (hl : s.calls.loc p = .running) :
    TlbInv cr3 editable known M { s.goto p (.calling op) with
      calls := { s.calls.goto p (.inCall .lockTest ⟨(), s.calls.nextCall, false⟩) with
        nextCall := s.calls.nextCall + 1 } } := by
  have hp : (s.job p).edits ≠ none := by
    rw [hj]
    simp [Job.edits]
  obtain ⟨-, -, hinv⟩ := h.holder hp
  rw [hj] at hinv
  obtain ⟨⟨hcan, hset, hbut⟩, haddr, hfresh⟩ := hinv
  refine h.of_holder hp (by simp [Job.edits]) rfl rfl rfl ?_ (fun q hq => goto_loc_ne _ _ hq) (.inr ⟨op, rfl⟩)
    ⟨⟨hcan, hset, hbut⟩, haddr, hfresh, .inl ⟨_, _, goto_loc_self _ _ _, fun q hq => absurd ?_ hq, by simp⟩⟩
  · exact h.calls.step (show Step p 0 _ _ from .startCall () hl hi)
  · exact (h.calls.untouched_next le_rfl).1 q

/-- `inter_processor_call` returns. -/
theorem TlbInv.called (h : TlbInv cr3 editable known M s) (hj : s.job p = .calling op)
    (hl : s.calls.loc p = .running) : TlbInv cr3 editable known M (s.goto p (.unlock op)) := by
  have hp : (s.job p).edits ≠ none := by
    rw [hj]
    simp [Job.edits]
  obtain ⟨-, -, hinv⟩ := h.holder hp
  rw [hj] at hinv
  obtain ⟨⟨hcan, hset, hbut⟩, -, -, ⟨_, _, hl', -⟩ | ⟨-, hall⟩⟩ := hinv
  · rw [hl] at hl'
    cases hl'
  · exact h.of_holder hp (by simp [Job.edits]) rfl rfl rfl h.calls (fun _ _ => rfl) (.inl hl)
      ⟨⟨hcan, hset, hbut⟩, hall⟩

/-- `mtx_unlock`: the page of the call is one of the known pages now. -/
theorem TlbInv.unlock (h : TlbInv cr3 editable known M s) (hj : s.job p = .unlock op) :
    TlbInv cr3 editable known M
      { s.goto p .idle with pagingMutex := false, returned := s.returned ++ [op] } := by
  have hp : (s.job p).edits ≠ none := by
    rw [hj]
    simp [Job.edits]
  obtain ⟨-, halone, hinv⟩ := h.holder hp
  rw [hj] at hinv
  obtain ⟨⟨-, hset, hbut⟩, hall⟩ := hinv
  have hother : ∀ q, q ≠ p → (s.goto p .idle).job q = s.job q := fun q hq => Function.update_of_ne hq _ _
  have hself : (s.goto p .idle).job p = .idle := Function.update_self _ _ _
  have hknown : ∀ w, TlbState.Known known
      { s.goto p .idle with pagingMutex := false, returned := s.returned ++ [op] } w ↔
      s.Known known w ∨ op.page / 4096 = w / 4096 := by
    intro w
    simp only [TlbState.Known, List.mem_append, List.mem_singleton, or_and_right, exists_or, exists_eq_left,
      or_assoc]
  have hmap : TlbState.pageMap M { s.goto p .idle with pagingMutex := false, returned := s.returned ++ [op] } =
      op.apply (s.pageMap M) := by
    simp [TlbState.pageMap]
  refine ⟨h.calls, fun q hq => ?_, fun q op' hq => ?_, fun _ => ⟨fun q => ?_, ?_, fun w hw hk q => ?_⟩,
    fun htaken => (by cases htaken)⟩
  · obtain ⟨op', hq'⟩ := h.callers q hq
    refine ⟨op', ?_⟩
    show (s.goto p .idle).job q = _
    rw [hother q ?_, hq']
    rintro rfl
    rw [hq'] at hj
    cases hj
  · change (s.goto p .idle).job q = _ ∨ (s.goto p .idle).job q = _ at hq
    by_cases hqp : q = p
    · subst hqp
      rw [hself] at hq
      rcases hq with hq | hq <;> cases hq
    · rw [hother q hqp] at hq
      have hok := h.waiting q op' hq
      cases op' with
      | mapPage => exact hok
      | unmapPage v => exact ⟨hok.1, (hknown v).mpr (.inl hok.2)⟩
  · show ((s.goto p .idle).job q).edits = none
    by_cases hqp : q = p
    · subst hqp
      rw [hself]
      rfl
    · rw [hother q hqp]
      exact halone q hqp
  · rw [hmap, show TlbState.Known known _ = _ from funext fun w => propext (hknown w)]
    exact hset
  · by_cases hpage : op.page / 4096 = w / 4096
    · intro leaf hleaf
      show walk s.mem cr3 w = some leaf
      rw [← walk_of_same_page s.mem cr3 hpage]
      refine hall q leaf ?_
      rw [hpage]
      exact hleaf
    · exact hbut w hw (((hknown w).mp hk).resolve_right hpage) (Ne.symm hpage) q

/-- What a step that starts no call and runs no function does to a processor past the barrier: it runs other code
still, or goes on in its call, or leaves it. -/
theorem Step.goes_on {F : Type} {c c' : State P F} (h : Inv c) (hs : Step bsp apCount c c')
    (hnext : c'.nextCall = c.nextCall) {p : P} (hpast : c.loc p ≠ .barrier) :
    c'.loc p = c.loc p ∨
      (∃ st st' k, c.loc p = .inCall st k ∧ c'.loc p = .inCall st' k ∧
        (st' = .unlock → ∃ n, st = .waitProcessors n)) ∨
      ∃ k, c.loc p = .inCall .unlock k ∧ c'.loc p = .running := by
  by_cases hp : c'.loc p = c.loc p
  · exact .inl hp
  have mover : ∀ {r : P} {l : Loc F}, c'.loc = Function.update c.loc r l → r = p := by
    intro r l hupd
    by_contra hne
    exact hp (by rw [hupd, Function.update_of_ne (Ne.symm hne)])
  refine .inr ?_
  cases hs with
  | takeIpi | isrLoad | isrRun | isrEoi | isrAck => exact absurd rfl hp
  | startCall | startEarlyCall => exact absurd hnext (Nat.succ_ne_self _)
  | initApic hl => exact absurd hl h.counted.1
  | increment hl => exact absurd hl h.counted.2
  | passBarrier hl =>
    obtain rfl := mover rfl
    exact absurd hl hpast
  | @unlock r k hl =>
    obtain rfl := mover rfl
    refine .inr ⟨k, hl, ?_⟩
    show (c.goto r k.back).loc r = _
    rw [goto_loc_self]
    simp [Call.back, (h.in_call hl).1]
  | @waitDone r k n hl =>
    obtain rfl := mover rfl
    exact .inl ⟨_, _, k, hl, goto_loc_self _ _ _, fun _ => ⟨n, rfl⟩⟩
  | lockTest hl | lockRetry hl | lockXchg hl | setFun hl | setCount hl | broadcastYes hl | broadcastNo hl | sendIpi hl
  | waitCount hl | waitMore hl =>
    obtain rfl := mover rfl
    exact .inl ⟨_, _, _, hl, goto_loc_self _ _ _, by simp⟩

/-- When a caller is about to return, all processors have run the function for it. -/
theorem Step.all_ran {F : Type} {c c' : State P F} (h : Inv c) (hs : Step bsp apCount c c') {k : Call F} {n : UInt16}
    (hl : c.loc p = .inCall (.waitProcessors n) k) (hl' : c'.loc p = .inCall .unlock k) {q : P} (hq : q ≠ p) :
    c.runsOf q k.id ≠ [] := by
  obtain ⟨hn, rfl⟩ := hs.leaves_wait hl hl'
  obtain ⟨-, -, hact, hle⟩ := h.holder hl rfl
  have hw := h.working
  rw [(hact.all_done (by omega)).2.1 q hq]
  simp

/-- An inter-processor call goes on. -/
theorem TlbInv.call (h : TlbInv cr3 editable known M s) {c : State P Unit} (hc : Step bsp apCount s.calls c)
    (hnext : c.nextCall = s.calls.nextCall) (hruns : c.runs = s.calls.runs) :
    TlbInv cr3 editable known M { s with calls := c } := by
  have hf : Fresher cr3 s { s with calls := c } := ⟨rfl, rfl, rfl, fun _ _ _ hl => .inl hl⟩
  refine h.of_fresher hf rfl rfl (h.calls.step hc) (fun q hq => ?_) fun p op _ _ hfresh hs => ?_
  · rcases hc.goes_on h.calls hnext (p := q) (by simp [hq]) with heq | ⟨_, _, _, hl, -⟩ | ⟨_, hl, -⟩
    · exact heq.trans hq
    · rw [hq] at hl
      cases hl
    · rw [hq] at hl
      cases hl
  · rcases hs with ⟨st, k, hl, hran, hun⟩ | ⟨hl, hall⟩
    · rcases hc.goes_on h.calls hnext (p := p) (by simp [hl]) with heq | ⟨_, st', _, hl₁, hl', hwait⟩ | ⟨_, hl₁, hl'⟩
      · refine .inl ⟨st, k, heq.trans hl, fun q hq => ?_, hun⟩
        rw [runsOf_congr hruns] at hq
        exact hran q hq
      · rw [hl] at hl₁
        cases hl₁
        refine .inl ⟨st', k, hl', fun q hq => ?_, fun hst q => ?_⟩
        · rw [runsOf_congr hruns] at hq
          exact hran q hq
        · obtain ⟨n, rfl⟩ := hwait hst
          subst hst
          by_cases hqp : q = p
          · subst hqp
            exact hfresh
          · exact hran q (hc.all_ran h.calls hl hl' hqp)
      · rw [hl] at hl₁
        cases hl₁
        exact .inr ⟨hl', hun rfl⟩
    · refine .inr ⟨?_, hall⟩
      rcases hc.goes_on h.calls hnext (p := p) (by simp [hl]) with heq | ⟨_, _, _, hl₁, -⟩ | ⟨_, hl₁, -⟩
      · exact heq.trans hl
      · rw [hl] at hl₁
        cases hl₁
      · rw [hl] at hl₁
        cases hl₁

/-- A handler runs `__invalidate_tlbs`. -/
theorem TlbInv.handler (h : TlbInv cr3 editable known M s) {q : P} {id : Nat} (hi : s.calls.isr q = .loaded id ()) :
    TlbInv cr3 editable known M { s.setTlb q (s.invldTlbsAddr / 4096) none with
      calls := { s.calls.gotoIsr q (.ran id) with runs := s.calls.runs ++ [⟨q, id, ()⟩] } } := by
  obtain ⟨h₁, h₂, h₃, h₄⟩ := fresher_drop cr3 s q (s.invldTlbsAddr / 4096)
  have hf : Fresher cr3 s { s.setTlb q (s.invldTlbsAddr / 4096) none with
      calls := { s.calls.gotoIsr q (.ran id) with runs := s.calls.runs ++ [⟨q, id, ()⟩] } } := ⟨h₁, h₂, h₃, h₄⟩
  refine h.of_fresher hf rfl rfl (h.calls.step (show Step q 0 _ _ from .isrRun hi)) (fun _ hr => hr)
    fun p op _ haddr _ hs => ?_
  rcases hs with ⟨st, k, hl, hran, hun⟩ | ⟨hl, hall⟩
  · refine .inl ⟨st, k, hl, fun r hr => ?_, fun hst r => hf.freshAt (hun hst r)⟩
    by_cases hrq : r = q
    · subst hrq
      rw [haddr]
      exact freshAt_drop cr3 s r op.page
    · have hruns : State.runsOf { s.calls.gotoIsr q (.ran id) with runs := s.calls.runs ++ [⟨q, id, ()⟩] } r k.id =
          s.calls.runsOf r k.id := runsOf_append_ne rfl (.inl hrq)
      exact hf.freshAt (hran r fun hnil => hr (hruns.trans hnil))
  · exact .inr ⟨hl, fun r => hf.freshAt (hall r)⟩

/-- A TLB takes a translation. -/
theorem TlbInv.fill (h : TlbInv cr3 editable known M s) (q : P) {w : Nat} {leaf : Nat × Nat}
    (hwalk : walk s.mem cr3 w = some leaf) : TlbInv cr3 editable known M (s.setTlb q (w / 4096) (some leaf)) := by
  have hf : Fresher cr3 s (s.setTlb q (w / 4096) (some leaf)) := by
    refine ⟨rfl, rfl, rfl, fun r n leaf' hleaf => ?_⟩
    by_cases hr : r = q
    · subst hr
      by_cases hn : n = w / 4096
      · subst hn
        simp only [TlbState.setTlb, Function.update_self, Option.some.injEq] at hleaf
        subst hleaf
        exact .inr fun x hx => (walk_of_same_page s.mem cr3 hx).trans hwalk
      · exact .inl (by simpa [TlbState.setTlb, hn] using hleaf)
    · exact .inl (by simpa [TlbState.setTlb, hr] using hleaf)
  exact h.of_fresher hf rfl rfl h.calls (fun _ hr => hr) fun _ _ _ _ _ hs => hf.served rfl hs

/-- Every step keeps the invariant. -/
theorem TlbInv.step (h : TlbInv cr3 editable known M s) (hv : ∀ v, editable v → UserPage v)
    (hs : TlbStep bsp apCount cr3 editable known s s') : TlbInv cr3 editable known M s' := by
  cases hs with
  | start op hj _ hop =>
    refine h.of_waiting (by rw [hj]; rfl) rfl fun op' hop' => ?_
    rcases hop' with hop' | hop' <;> cases hop'
    exact hop
  | @lockTest p op hj =>
    refine h.of_waiting (by rw [hj]; rfl) rfl fun op' hop' => ?_
    rcases hop' with hop' | hop' <;> cases hop'
    exact h.waiting p op (.inl hj)
  | @lockRetry p op hj =>
    refine h.of_waiting (by rw [hj]; rfl) rfl fun op' hop' => ?_
    rcases hop' with hop' | hop' <;> cases hop'
    exact h.waiting p op (.inr hj)
  | lockXchg hj _ hm => exact h.lockXchg hv hj hm
  | access hj _ ho => exact h.access hj ho
  | panic hj => exact h.panic hj
  | edited hj => exact h.edited hj
  | setAddr hj => exact h.setAddr hj
  | invalidate hj => exact h.invalidate hj
  | startCall hj hi hl hc =>
    subst hc
    exact h.startCall hj hi hl
  | call hc hnext hruns => exact h.call hc hnext hruns
  | handler hi hc =>
    subst hc
    exact h.handler hi
  | called hj _ hl => exact h.called hj hl
  | unlock hj => exact h.unlock hj
  | fill q _ hwalk => exact h.fill q hwalk
  | evict q n =>
    have hf := fresher_drop cr3 s q n
    exact h.of_fresher hf rfl rfl h.calls (fun _ hr => hr) fun _ _ _ _ _ hs => hf.served rfl hs

/-- The invariant holds at the start. -/
theorem TlbStart.inv (h : TlbStart cr3 editable known s) : TlbInv cr3 editable known (walk s.mem cr3) s where
  calls := h.calls.inv
  callers p hp := absurd (h.calls.running p) hp
  waiting p op hj := by
    rw [h.jobs p] at hj
    rcases hj with hj | hj <;> cases hj
  free _ := by
    have hk : ∀ w, s.Known known w → known w := fun w hw => by
      rcases hw with hw | ⟨op, hop, -⟩
      · exact hw
      · rw [h.returned] at hop
        cases hop
    refine ⟨fun p => by rw [h.jobs p]; rfl, ⟨h.pageTables, fun v hv => (h.editable v hv).2, fun w _ => ?_,
      fun w _ hw => (h.known w (hk w hw)).2.1⟩, fun w _ hw => (h.known w (hk w hw)).2.2⟩
    simp [TlbState.pageMap, h.returned]
  taken ht := by
    rw [h.unlocked] at ht
    cases ht

/-- The invariant holds in every state reached. -/
theorem TlbInv.steps {s₀ : TlbState P} (h₀ : TlbStart cr3 editable known s₀)
    (hs : TlbSteps bsp apCount cr3 editable known s₀ s) : TlbInv cr3 editable known (walk s₀.mem cr3) s := by
  induction hs with
  | refl => exact h₀.inv
  | tail _ hstep ih => exact ih.step (fun v hv => (h₀.editable v hv).1) hstep

/-- What the page tables map and what the TLBs hold, for a known page that is not being edited. -/
theorem TlbInv.settled_page (h : TlbInv cr3 editable known M s) {w : Nat} (hw : index w 39 ≠ 511)
    (hk : s.Known known w) (hidle : ∀ p op, (s.job p).edits = some op → op.page / 4096 ≠ w / 4096) :
    walk s.mem cr3 w = s.pageMap M w ∧ ∀ q, FreshAt cr3 s q w := by
  have hdone : ∀ p op, (s.job p).edits = some op → EditDone cr3 editable known M s op →
      walk s.mem cr3 w = s.pageMap M w ∧ ∀ q, FreshAt cr3 s q w := by
    intro p op hop hd
    have hne := hidle p op hop
    refine ⟨?_, fun q => hd.others w hw hk hne.symm q⟩
    rw [hd.settled.map w hw, PageOp.apply, if_neg hne.symm]
  have hsteady : ∀ p op m₀, (s.job p).edits = some op → Settled cr3 editable (s.pageMap M) (s.Known known) m₀ →
      Steady cr3 op.page m₀ s.mem → FreshBut cr3 known s op.page →
      walk s.mem cr3 w = s.pageMap M w ∧ ∀ q, FreshAt cr3 s q w := by
    intro p op m₀ hop hset hst hbut
    have hne := hidle p op hop
    refine ⟨?_, fun q => hbut w hw hk hne.symm q⟩
    rw [hst.walk w hw hne.symm (hset.inTables w hw hk), hset.map w hw]
  cases hm : s.pagingMutex with
  | false =>
    obtain ⟨-, hset, hfresh⟩ := h.free hm
    exact ⟨hset.map w hw, fun q => hfresh w hw hk q⟩
  | true =>
    obtain ⟨p, hp, -, hinv⟩ := h.taken hm
    cases hj : s.job p with
    | idle | lockTest | lockXchg =>
      rw [hj] at hp
      exact absurd rfl hp
    | editing op rest =>
      rw [hj] at hinv
      obtain ⟨-, m₀, hset, hmom, hbut⟩ := hinv
      exact hsteady p op m₀ (by rw [hj]; rfl) hset hmom.now hbut
    | halted op =>
      rw [hj] at hinv
      obtain ⟨m₀, hset, hst, hbut⟩ := hinv
      exact hsteady p op m₀ (by rw [hj]; rfl) hset hst hbut
    | setAddr op =>
      rw [hj] at hinv
      exact hdone p op (by rw [hj]; rfl) hinv
    | invalidate op | startCall op | calling op | unlock op =>
      rw [hj] at hinv
      exact hdone p op (by rw [hj]; rfl) hinv.1

/-! ## The main results -/

/-- **No stale translations.** In every state of every run, a page that is not being edited just now, and that
was in the page tables at the start or has been edited since, is mapped as the calls that have returned say,
and every TLB has this translation of it or none. -/
theorem tlbShootdown_coherent {s₀ : TlbState P} (h₀ : TlbStart cr3 editable known s₀)
    (hrun : TlbSteps bsp apCount cr3 editable known s₀ s) {w : Nat} (hw : index w 39 ≠ 511)
    (hk : known w ∨ ∃ op ∈ s.returned, op.page / 4096 = w / 4096)
    (hidle : ∀ p op, (s.job p).edits = some op → op.page / 4096 ≠ w / 4096) :
    walk s.mem cr3 w = s.returned.foldl PageOp.apply (walk s₀.mem cr3) w ∧
      ∀ q leaf, s.tlb q (w / 4096) = some leaf → walk s.mem cr3 w = some leaf :=
  (TlbInv.steps h₀ hrun).settled_page hw hk hidle

/-- **The editor finds its tables.** In every state of every run at most one processor is between `mtx_lock` and
`mtx_unlock` of `paging_mutex`, and when its next access of the page tables is due, its address is mapped. -/
theorem tlbShootdown_edits {s₀ : TlbState P} (h₀ : TlbStart cr3 editable known s₀)
    (hrun : TlbSteps bsp apCount cr3 editable known s₀ s) :
    (∀ p q, (s.job p).edits ≠ none → (s.job q).edits ≠ none → p = q) ∧
      ∀ p op o (k : TableOp.Answer o → EditM Unit), s.job p = .editing op (.op o k) → ∃ r m, o.step cr3 s.mem r m := by
  have h := TlbInv.steps h₀ hrun
  refine ⟨fun p q hp hq => ?_, fun p op o k hj => ?_⟩
  · obtain ⟨-, halone, -⟩ := h.holder hp
    by_contra hne
    exact hq (halone q (Ne.symm hne))
  · obtain ⟨-, -, hinv⟩ := h.holder (p := p) (by rw [hj]; simp [Job.edits])
    rw [hj] at hinv
    obtain ⟨-, _, -, hmom, -⟩ := hinv
    cases hmom with
    | op _ hex _ => exact hex

end Preservation

/-! ### Two processors -/

/-- Two processors after boot, with a large page at `0x400000`. -/
def twoTlbs : TlbState (Fin 2) where
  mem := (withLargePage 0x600083).mem
  calls :=
    { loc _ := .running
      isr _ := .idle
      pending _ := []
      ipCallFun := none
      ipCallCount := 0
      ipcallMutex := false
      workingProcessorCount := 2
      nextCall := 0
      runs := []
      acks := [] }
  pagingMutex := false
  invldTlbsAddr := 0
  job _ := .idle
  tlb _ _ := none
  returned := []

theorem twoTlbs_start : TlbStart 0x1000 (· = 0x200000) (· = 0x400000) twoTlbs := by
  obtain ⟨hpt, -, hwalk, hn, -, -⟩ := largePage_withLargePage (e := 0x600083) (by decide) rfl rfl
  have hm : tables twoTlbs.mem = (((tables windowOnly.mem).set 1 0 0x2003).set 2 0 0x3003).set 3 2 0x600083 := by
    rw [← grown_twoTables.2.2]
    exact tables_store64 twoTables 3 2 (by decide)
  have hn₃ : tableAt twoTlbs.mem 0x1000 [0, 0] = some 3 := hn
  have hn₂ : tableAt twoTlbs.mem 0x1000 [0] = some 2 := by
    show (some 1).bind (fun n => link (tables twoTlbs.mem n 0)) = some 2
    rw [Option.bind_some, hm]
    decide +kernel
  refine ⟨⟨fun _ => rfl, fun _ => ⟨rfl, rfl⟩, rfl, rfl, nofun, nofun⟩, fun _ => rfl, rfl, rfl, hpt, ?_, ?_⟩
  · rintro _ rfl
    refine ⟨⟨by decide, by decide, by decide⟩, fun p i hu e he hpres => ?_⟩
    rcases hu with _ | _ | _
    · rw [entries_of_tableAt (n := 1) rfl, hm] at he
      rw [← Option.some.inj he]
      decide +kernel
    · rw [show [index 0x200000 39] = [0] from by decide, entries_of_tableAt hn₂, hm] at he
      rw [← Option.some.inj he]
      decide +kernel
    · rw [show [index 0x200000 39, index 0x200000 30] = [0, 0] from by decide, entries_of_tableAt hn₃, hm] at he
      obtain rfl := Option.some.inj he
      revert hpres
      decide +kernel
  · rintro _ rfl
    refine ⟨by decide, .inr ?_, fun q leaf hleaf => by cases hleaf⟩
    rw [show walk twoTlbs.mem 0x1000 0x400000 = some (0x600083, 21) from hwalk]
    simp

/-- Processor 0 has begun to map a page when processor 1 takes a translation of another one. -/
theorem tlbShootdown_coherent_twoTlbs :
    ∃ s, TlbSteps 0 1 0x1000 (· = 0x200000) (· = 0x400000) twoTlbs s ∧
      (s.job 0).edits = some (.mapPage 0x200000 0x5000 2) ∧ s.tlb 1 0x400 = some (0x600083, 21) ∧
      walk s.mem 0x1000 0x400000 = some (0x600083, 21) := by
  let op : PageOp := .mapPage 0x200000 0x5000 2
  have hattr : AttributeBits 2 := (show FlagsOk 2 from ⟨by decide, by decide⟩).attributeBits
  have locked : TlbSteps 0 1 0x1000 (· = 0x200000) (· = 0x400000) twoTlbs _ :=
    ((Relation.ReflTransGen.refl.tail (.start (p := 0) op rfl rfl ⟨rfl, by decide, hattr⟩)).tail
      (.lockTest (p := 0) rfl rfl rfl)).tail (.lockXchg (p := 0) rfl rfl rfl)
  have hwalk : walk twoTlbs.mem 0x1000 0x400000 = some (0x600083, 21) :=
    (largePage_withLargePage (e := 0x600083) (by decide) rfl rfl).2.2.1
  have taken := locked.tail (.fill 1 (w := 0x400000) (by decide) hwalk)
  have hc := tlbShootdown_coherent twoTlbs_start taken (w := 0x400000) (by decide) (.inl rfl) ?_
  · exact ⟨_, taken, rfl, rfl, hc.2 1 _ rfl⟩
  · intro p op' hop'
    by_cases hp : p = 0
    · subst hp
      obtain rfl := Option.some.inj hop'
      decide
    · obtain rfl : p = 1 := by omega
      cases hop'

/-- Processor 0 can make the access that is due. -/
theorem tlbShootdown_edits_twoTlbs :
    ∃ s, TlbSteps 0 1 0x1000 (· = 0x200000) (· = 0x400000) twoTlbs s ∧
      ∃ r m, TableOp.step 0x1000 (.read (pml4eAddrOf 0x200000)) s.mem r m := by
  let op : PageOp := .mapPage 0x200000 0x5000 2
  have hattr : AttributeBits 2 := (show FlagsOk 2 from ⟨by decide, by decide⟩).attributeBits
  have locked : TlbSteps 0 1 0x1000 (· = 0x200000) (· = 0x400000) twoTlbs _ :=
    ((Relation.ReflTransGen.refl.tail (.start (p := 0) op rfl rfl ⟨rfl, by decide, hattr⟩)).tail
      (.lockTest (p := 0) rfl rfl rfl)).tail (.lockXchg (p := 0) rfl rfl rfl)
  exact ⟨_, locked, (tlbShootdown_edits twoTlbs_start locked).2 0 op (.read (pml4eAddrOf 0x200000)) _ rfl⟩

end KoalemOS.Smp
