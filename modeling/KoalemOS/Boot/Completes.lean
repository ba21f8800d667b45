import KoalemOS.Boot.LoadLoop

/-!
# With enough memory the load loop returns

The loader stops early only when `AllocatePages` fails. When the firmware has `room`
pages left, a computation that needs at most that many returns (`Completes`); a segment
needs its frames and at most three tables a page (`loadKernel_returns`).
-/

namespace KoalemOS.Boot

open KoalemOS.Library KoalemOS.Paging

variable {F α β : Type} {bs : BootServices F} {room : F → Nat}

/-! ## Room -/

/-- The allocator succeeds while there is room. -/
def HasRoom (bs : BootServices F) (room : F → Nat) : Prop :=
  ∀ st pages, 0 < pages → pages ≤ room st →
    ∃ addr st', bs.allocatePages st pages = (.ok addr, st') ∧ room st ≤ room st' + pages

/-- With room for `n` pages the computation returns and takes at most that many. -/
def Completes (room : F → Nat) (n : Nat) (m : BootM F α) : Prop :=
  ∀ s, n ≤ room s.firmware → ∃ a s', m.Returns s a s' ∧ room s.firmware ≤ room s'.firmware + n

namespace Completes

theorem pure (a : α) : Completes room 0 (Pure.pure a) := fun s _ =>
  ⟨a, s, Outcome.returns_pure a s, Nat.le_refl _⟩

theorem gets (f : Loader F → α) : Completes room 0 (Outcome.gets f) := fun s _ =>
  ⟨f s, s, Outcome.returns_gets f s, Nat.le_refl _⟩

theorem writePhys (a x : Nat) : Completes room 0 (writePhys (F := F) a x) := fun _ _ =>
  ⟨(), _, returns_writePhys a x, Nat.le_refl _⟩

theorem writePhysByte (a : Nat) (b : UInt8) : Completes room 0 (writePhysByte (F := F) a b) :=
  fun _ _ => ⟨(), _, Outcome.returns_modify _ _, Nat.le_refl _⟩

theorem allocatePages (h : HasRoom bs room) {pages : Nat} (hpages : 0 < pages) :
    Completes room pages (allocatePages bs pages) := by
  intro s hs
  obtain ⟨addr, st', hcall, hroom⟩ := h s.firmware pages hpages hs
  refine ⟨addr, { s with firmware := st' }, ?_, hroom⟩
  unfold Outcome.Returns Boot.allocatePages
  rw [hcall]

theorem bind {n k : Nat} {m : BootM F α} {f : α → BootM F β} (hm : Completes room n m)
    (hf : ∀ a, Completes room k (f a)) : Completes room (n + k) (m >>= f) := by
  intro s hs
  obtain ⟨a, s₁, hret₁, h₁⟩ := hm s (by omega)
  obtain ⟨b, s₂, hret₂, h₂⟩ := hf a s₁ (by omega)
  exact ⟨b, s₂, hret₁.bind hret₂, by omega⟩

theorem mono {n k : Nat} {m : BootM F α} (hm : Completes room n m) (hnk : n ≤ k) :
    Completes room k m := by
  intro s hs
  obtain ⟨a, s', hret, h⟩ := hm s (by omega)
  exact ⟨a, s', hret, by omega⟩

theorem ite {n : Nat} {c : Prop} [Decidable c] {m₁ m₂ : BootM F α} (h₁ : Completes room n m₁)
    (h₂ : Completes room n m₂) : Completes room n (if c then m₁ else m₂) := by
  split_ifs
  · exact h₁
  · exact h₂

theorem loop {body : Nat → BootM F Unit} (h : ∀ i, Completes room 0 (body i)) (start count : Nat) :
    Completes room 0 (Outcome.loop start count body) := by
  induction count generalizing start with
  | zero => exact pure ()
  | succ count ih =>
    rw [Outcome.loop_succ]
    exact (h start).bind fun _ => ih (start + 1)

end Completes

/-! ## The parts of the loader -/

theorem completes_nextTable (h : HasRoom bs room) (table : Nat) (i : Fin 512) :
    Completes room 1 (nextTable bs table i) := by
  have hnew : Completes room (1 + (0 + 0)) (newTable bs (table + 8 * i)) :=
    (Completes.allocatePages h Nat.one_pos).bind fun addr =>
      (Completes.loop (fun k => .writePhys _ _) 0 512).bind fun _ => .writePhys _ _
  have hensure : Completes room (0 + 1) (ensurePresent bs (table + 8 * i)) :=
    (Completes.gets _).bind fun e => .ite ((Completes.pure ()).mono (by decide)) hnew
  exact hensure.bind fun _ => (Completes.gets _).bind fun e =>
    (Completes.writePhys _ _).bind fun _ => (Completes.gets _).bind fun e => .pure _

theorem completes_addPageMapping (h : HasRoom bs room) (pml4 v p : Nat) :
    Completes room 3 (addPageMapping bs pml4 v p .size4K) := by
  have hpt : ∀ pd : Nat, Completes room (1 + 0) (nextTable bs pd (index v 21) >>= fun pt =>
      writePhys (pt + 8 * index v 12) (leafEntry p)) := fun pd =>
    (completes_nextTable h pd (index v 21)).bind fun pt => .writePhys _ _
  exact (completes_nextTable h pml4 (index v 39)).bind fun pdpt =>
    (completes_nextTable h pdpt (index v 30)).bind fun pd => hpt pd

theorem completes_mapSegment (h : HasRoom bs room) (pml4 addr startPage k offset last : Nat) :
    Completes room (3 * k) (mapSegment bs pml4 addr startPage k offset last) := by
  induction k generalizing offset last with
  | zero => exact .pure last
  | succ k ih =>
    unfold mapSegment
    refine .ite ((ih _ _).mono (by omega)) ?_
    exact ((completes_addPageMapping h pml4 _ _).bind fun _ => ih _ _).mono (by omega)

theorem completes_copySegment (elf addr : Nat) (ph : ProgramHeader) :
    Completes room 0 (copySegment (F := F) elf addr ph) :=
  (Completes.loop (fun _ => (Completes.gets _).bind fun _ => .writePhysByte _ _) _ _).bind fun _ =>
    .loop (fun _ => .writePhysByte _ _) _ _

/-- The pages a segment needs: its frames, and at most three tables a page. -/
def ProgramHeader.cost (ph : ProgramHeader) : Nat := 4 * (ph.memsz / 4096 + 2)

theorem completes_loadSegment (h : HasRoom bs room) (pml4 elf last : Nat) {ph : ProgramHeader}
    (hsz : ph.memsz ≤ 2 ^ 47) : Completes room ph.cost (loadSegment bs pml4 elf ph last) := by
  have hpages : ph.pages = ph.memsz / 4096 + 2 := wrap_of_lt (by omega)
  have hcount : wrap (ph.pages * 0x1000) / 0x1000 = ph.memsz / 4096 + 2 := by
    rw [hpages, wrap_of_lt (by omega)]
    omega
  refine Completes.mono ((Completes.allocatePages h (by omega : 0 < ph.pages)).bind fun addr =>
    (completes_mapSegment h pml4 addr ph.startPage _ 0 last).bind fun last' =>
      (completes_copySegment elf addr ph).bind fun _ => .pure last') ?_
  rw [hcount, hpages]
  unfold ProgramHeader.cost
  omega

/-! ## The load loop -/

theorem loadSegments_returns (h : HasRoom bs room) {S : Fin 512 → Prop}
    {pml4 elf len start size i k : Nat} {s₀ s : Loader F} {ps : List ProgramHeader}
    (hroot : FrameAddr pml4) (h511 : ¬S 511)
    (hl : Loaded bs S pml4 elf len s₀ ps s) (hts : ∀ q ∈ ps, Target S q)
    (htable : ∀ j, i ≤ j → j < i + k →
      elf ≤ wrap (start + size * j) ∧ wrap (start + size * j) + 56 ≤ elf + len)
    (hheaders : ∀ ph ∈ loadable (headersFrom s₀.mem start size i k),
      Target S ph ∧ ph.filesz ≤ ph.memsz ∧ ph.offset + ph.filesz ≤ len)
    (hroom : ((loadable (headersFrom s₀.mem start size i k)).map ProgramHeader.cost).sum ≤
      room s.firmware) :
    ∃ s', (loadSegments bs pml4 elf start size k i (lastAfter ps)).Returns s () s' := by
  induction k generalizing i ps s with
  | zero => exact ⟨s, Outcome.returns_pure () s⟩
  | succ k ih =>
    have hph : headerAt s.mem (wrap (start + size * i)) =
        headerAt s₀.mem (wrap (start + size * i)) := by
      obtain ⟨h1, h2⟩ := htable i (Nat.le_refl _) (by omega)
      exact headerAt_eq fun x h3 h4 => hl.fileBytes x (by omega) (by omega)
    have hread : (Outcome.gets fun s => headerAt s.mem (wrap (start + size * i)) :
        BootM F ProgramHeader).Returns s (headerAt s₀.mem (wrap (start + size * i))) s := by
      rw [← hph]
      exact Outcome.returns_gets _ s
    rw [headersFrom_succ] at hheaders hroom
    have hrest : ∀ j, i + 1 ≤ j → j < i + 1 + k →
        elf ≤ wrap (start + size * j) ∧ wrap (start + size * j) + 56 ≤ elf + len :=
      fun j h1 h2 => htable j (by omega) (by omega)
    by_cases htype : (headerAt s₀.mem (wrap (start + size * i))).type = ptLoad
    · rw [loadable_cons_of_load htype] at hheaders hroom
      obtain ⟨ht, hsz, hrange⟩ := hheaders _ List.mem_cons_self
      rw [List.map_cons, List.sum_cons] at hroom
      obtain ⟨last, s₁, hseg, hleft⟩ :=
        completes_loadSegment h pml4 elf (lastAfter ps) (ht.bounds h511).1 s (by omega)
      obtain ⟨rfl, addr, hloaded⟩ :=
        loadSegment_spec hroot h511 hl.built hl.file ht hsz hrange hseg
      obtain ⟨s', hret⟩ := ih (hl.step h511 hts ht hrange hloaded)
        (fun q hq => (List.mem_append.mp hq).elim (hts q) fun hq => by rwa [List.mem_singleton.mp hq])
        hrest (fun q hq => hheaders q (List.mem_cons_of_mem _ hq)) (by omega)
      rw [lastAfter_concat] at hret
      refine ⟨s', hread.bind (Outcome.Returns.bind ?_ hret)⟩
      rwa [loadHeader, if_pos htype]
    · rw [loadable_cons_of_not_load htype] at hheaders hroom
      obtain ⟨s', hret⟩ := ih hl hts hrest hheaders hroom
      refine ⟨s', hread.bind (Outcome.Returns.bind ?_ hret)⟩
      rw [loadHeader, if_neg htype]
      exact Outcome.returns_pure _ _

/-- With room for the segments and their tables the load loop returns. -/
theorem loadKernel_returns (h : HasRoom bs room) {pml4 elf len : Nat} {s : Loader F}
    (hr : Ready bs pml4 elf len s)
    (hroom : ((loadable (headers s.mem elf)).map ProgramHeader.cost).sum ≤ room s.firmware) :
    ∃ s', (loadKernel bs pml4 elf).Returns s () s' := by
  obtain ⟨s', hret⟩ := loadSegments_returns h hr.root hr.not_slot hr.loaded (by simp)
    hr.tableIn (fun ph hph => ⟨hr.target ph hph, hr.file.sizes ph hph, hr.file.ranges ph hph⟩) hroom
  exact ⟨s', (returns_readPhys _ _).bind ((returns_readPhys _ _).bind
    ((returns_readPhys _ _).bind hret))⟩

end KoalemOS.Boot
