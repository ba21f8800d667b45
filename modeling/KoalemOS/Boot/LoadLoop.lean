import KoalemOS.Boot.LoadSegment

/-!
# The load loop

The load loop gives every segment frames of its own, but leaves a page alone that lies
at or below the last page mapped for an earlier segment. `Loaded` says after each header
where every mapped page leads and what is found there (`Loaded.step`, `loadKernel_loaded`).
-/

namespace KoalemOS.Boot

open KoalemOS.Library KoalemOS.Paging

/-! ## The kernel file -/

/-- `k` program headers from number `i` on. -/
def headersFrom (m : Mem) (pheadersStart pheaderSize i k : Nat) : List ProgramHeader :=
  (List.range' i k).map fun j => headerAt m (wrap (pheadersStart + pheaderSize * j))

/-- The program headers of the file at `elf`. -/
def headers (m : Mem) (elf : Nat) : List ProgramHeader :=
  headersFrom m (wrap (elf + m.loadLE (elf + 32) 8)) (m.loadLE (elf + 54) 2) 0
    (m.loadLE (elf + 56) 2)

/-- The `PT_LOAD` headers among some headers. -/
def loadable (hs : List ProgramHeader) : List ProgramHeader := hs.filter fun ph => ph.type = ptLoad

/-- Byte `k` of a segment: a byte of the file, or zero. -/
def segmentByte (m : Mem) (elf : Nat) (ph : ProgramHeader) (k : Nat) : UInt8 :=
  if k < ph.filesz then m (elf + ph.offset + k) else 0

/-- The file is complete: its headers and the file ranges of its segments lie within its
`len` bytes, and the segments are disjoint. -/
structure KernelFile (m : Mem) (elf len : Nat) : Prop where
  header : 64 ≤ len
  table : ∀ i < m.loadLE (elf + 56) 2, m.loadLE (elf + 32) 8 + m.loadLE (elf + 54) 2 * i + 56 ≤ len
  sizes : ∀ ph ∈ loadable (headers m elf), ph.filesz ≤ ph.memsz
  ranges : ∀ ph ∈ loadable (headers m elf), ph.offset + ph.filesz ≤ len
  disjoint : (loadable (headers m elf)).Pairwise fun p q =>
    ∀ k < p.memsz, ∀ l < q.memsz, p.vaddr + k ≠ q.vaddr + l

/-- `last_allocated_page` after some segments. -/
def lastAfter (ps : List ProgramHeader) : Nat := ps.foldl (fun last ph => max last ph.lastPage) 0

theorem lastAfter_concat (ps : List ProgramHeader) (ph : ProgramHeader) :
    lastAfter (ps ++ [ph]) = max (lastAfter ps) ph.lastPage := by
  simp [lastAfter]

theorem lastAfter_lt_iff {ps : List ProgramHeader} {x : Nat} :
    lastAfter ps < x ↔ 0 < x ∧ ∀ p ∈ ps, p.lastPage < x := by
  induction ps using List.reverseRecOn with
  | nil => simp [lastAfter]
  | append_singleton ps p ih =>
    rw [lastAfter_concat, max_lt_iff, ih]
    simp only [List.mem_append, List.mem_singleton, or_imp, forall_and, forall_eq]
    exact and_assoc

/-! ## The address space after some segments -/

variable {F : Type} {bs : BootServices F} {S : Fin 512 → Prop} {pml4 elf len : Nat}
  {s₀ s s' : Loader F}

/-- What a page mapped by the load loop shows: page `i` of a segment, in a frame that was
not in use before the loop. -/
structure Shows (bs : BootServices F) (S : Fin 512 → Prop) (pml4 elf : Nat) (s₀ s : Loader F)
    (ph : ProgramHeader) (y a : Nat) : Prop where
  inUse : bs.inUse s.firmware (a / 4096)
  notTable : ¬IsTableIn S s.mem pml4 (a / 4096)
  fresh : ¬bs.inUse s₀.firmware (a / 4096)
  byte : s.mem a =
    if ph.vaddr ≤ y ∧ y < ph.vaddr + ph.memsz then segmentByte s₀.mem elf ph (y - ph.vaddr)
    else s₀.mem a

/-- The state of the load loop after the segments `ps`. -/
structure Loaded (bs : BootServices F) (S : Fin 512 → Prop) (pml4 elf len : Nat)
    (s₀ : Loader F) (ps : List ProgramHeader) (s : Loader F) : Prop where
  built : Built bs S pml4 s
  file : FileAt bs S pml4 elf len s
  fileBytes : ∀ x, elf ≤ x → x < elf + len → s.mem x = s₀.mem x
  inUse : ∀ n, bs.inUse s₀.firmware n → bs.inUse s.firmware n
  unused : ∀ x, ¬bs.inUse s.firmware (x / 4096) → s.mem x = s₀.mem x
  mapped : ∀ w a, canonical w = true → S (index w 39) → translate s.mem pml4 w = some a →
    ∃ pre ph post i, ps = pre ++ ph :: post ∧ i < ph.memsz / 4096 + 2 ∧
      lastAfter pre < ph.startPage + 4096 * i ∧ indices w = indices (ph.startPage + 4096 * i) ∧
      Shows bs S pml4 elf s₀ s ph (ph.startPage + 4096 * i + w % 4096) a
  loaded : ∀ pre ph post, ps = pre ++ ph :: post → lastAfter pre < ph.startPage →
    ∀ k < ph.memsz, ∃ a, translate s.mem pml4 (ph.vaddr + k) = some a ∧
      Shows bs S pml4 elf s₀ s ph (ph.vaddr + k) a

/-- Frames in use that hold no table are none of a later segment's business. -/
theorem SegmentLoaded.byte_eq {ph : ProgramHeader} {addr last a : Nat}
    (h : SegmentLoaded bs S pml4 elf ph addr last s s') (ht : Target S ph)
    (hin : bs.inUse s.firmware (a / 4096)) (hn : ¬IsTableIn S s.mem pml4 (a / 4096)) :
    s'.mem a = s.mem a := by
  have hstart := ht.startPage_eq.1
  have haligned := h.aligned
  rw [h.bytes a (h.notTable _ hin hn)]
  unfold segmentMem
  rw [if_neg]
  rintro ⟨h1, h2⟩
  refine (h.fresh (a / 4096 - addr / 4096) (by omega)).1 ?_
  rwa [show addr / 4096 + (a / 4096 - addr / 4096) = a / 4096 by omega]

theorem Shows.step {ph q : ProgramHeader} {addr last y a : Nat}
    (h : SegmentLoaded bs S pml4 elf q addr last s s') (ht : Target S q)
    (hs : Shows bs S pml4 elf s₀ s ph y a) : Shows bs S pml4 elf s₀ s' ph y a where
  inUse := h.inUse _ hs.inUse
  notTable := h.notTable _ hs.inUse hs.notTable
  fresh := hs.fresh
  byte := by rw [h.byte_eq ht hs.inUse hs.notTable, hs.byte]

/-- The bytes of the page that a segment has just been given. -/
theorem SegmentLoaded.shows {ph : ProgramHeader} {addr last w i : Nat} {ps : List ProgramHeader}
    (h : SegmentLoaded bs S pml4 elf ph addr last s s') (ht : Target S ph)
    (hl : Loaded bs S pml4 elf len s₀ ps s) (hrange : ph.offset + ph.filesz ≤ len)
    (hi : i < ph.memsz / 4096 + 2)
    (hwalk : walk s'.mem pml4 w = some (leafEntry (addr + 4096 * i), 12)) :
    ∃ a, translate s'.mem pml4 w = some a ∧
      Shows bs S pml4 elf s₀ s' ph (ph.startPage + 4096 * i + w % 4096) a := by
  have hstart := ht.startPage_eq.1
  have haligned := h.aligned
  have hbound := h.bound
  have hframe : FrameAddr (addr + 4096 * i) := ⟨by omega, by omega⟩
  have hleaf : leafAddr (leafEntry (addr + 4096 * i), 12) w = addr + 4096 * i + w % 4096 := by
    rw [leafAddr_small, (leafEntry_spec hframe).2.2]
    omega
  refine ⟨addr + 4096 * i + w % 4096, ?_, ?_⟩
  · rw [Paging.translate, hwalk, Option.map_some, hleaf]
  have hdiv : (addr + 4096 * i + w % 4096) / 4096 = addr / 4096 + i := by omega
  obtain ⟨hfree, hin, hnot⟩ := h.fresh i hi
  rw [← hdiv] at hfree hin hnot
  refine ⟨hin, hnot, fun hc => hfree (hl.inUse _ hc), ?_⟩
  rw [h.bytes _ hnot]
  unfold segmentMem segmentByte
  have hiff : addr + (ph.vaddr - ph.startPage) ≤ addr + 4096 * i + w % 4096 ∧
      addr + 4096 * i + w % 4096 < addr + (ph.vaddr - ph.startPage) + ph.memsz ↔
        ph.vaddr ≤ ph.startPage + 4096 * i + w % 4096 ∧
          ph.startPage + 4096 * i + w % 4096 < ph.vaddr + ph.memsz := by omega
  by_cases hc : ph.vaddr ≤ ph.startPage + 4096 * i + w % 4096 ∧
      ph.startPage + 4096 * i + w % 4096 < ph.vaddr + ph.memsz
  · rw [if_pos (hiff.mpr hc), if_pos hc]
    have hk : addr + 4096 * i + w % 4096 - (addr + (ph.vaddr - ph.startPage)) =
        ph.startPage + 4096 * i + w % 4096 - ph.vaddr := by omega
    rw [hk]
    split_ifs with hfile
    · exact hl.fileBytes _ (by omega) (by omega)
    · rfl
  · rw [if_neg (fun h' => hc (hiff.mp h')), if_neg hc]
    exact hl.unused _ hfree

/-- Splitting off the last segment. -/
theorem concat_eq_append_cons {ps pre post : List ProgramHeader} {p q : ProgramHeader}
    (h : ps ++ [q] = pre ++ p :: post) :
    (∃ post', post = post' ++ [q] ∧ ps = pre ++ p :: post') ∨ post = [] ∧ ps = pre ∧ q = p := by
  cases post using List.reverseRecOn with
  | nil =>
    obtain ⟨h1, h2⟩ := List.append_inj' h rfl
    exact .inr ⟨rfl, h1, by simpa using h2⟩
  | append_singleton post r =>
    rw [← List.cons_append, ← List.append_assoc] at h
    obtain ⟨h1, h2⟩ := List.append_inj' h rfl
    exact .inl ⟨post, by simpa using h2.symm, h1⟩

/-- One more segment. -/
theorem Loaded.step {ph : ProgramHeader} {addr : Nat} {ps : List ProgramHeader} (h511 : ¬S 511)
    (hl : Loaded bs S pml4 elf len s₀ ps s) (hts : ∀ q ∈ ps, Target S q) (ht : Target S ph)
    (hrange : ph.offset + ph.filesz ≤ len)
    (h : SegmentLoaded bs S pml4 elf ph addr (lastAfter ps) s s') :
    Loaded bs S pml4 elf len s₀ (ps ++ [ph]) s' := by
  have hstart := ht.startPage_eq.1
  have hfile : ∀ x, elf ≤ x → x < elf + len → s'.mem x = s.mem x := fun x h1 h2 =>
    h.byte_eq ht (hl.file.inUse x h1 h2) (hl.file.notTable x h1 h2)
  refine ⟨h.built, ⟨hl.file.bound, fun x h1 h2 => h.inUse _ (hl.file.inUse x h1 h2),
    fun x h1 h2 => h.notTable _ (hl.file.inUse x h1 h2) (hl.file.notTable x h1 h2)⟩,
    fun x h1 h2 => (hfile x h1 h2).trans (hl.fileBytes x h1 h2),
    fun n hn => h.inUse n (hl.inUse n hn), fun x hx => ?_, fun w a hc hw htr => ?_,
    fun pre p post hps hlast k hk => ?_⟩
  · -- memory that is still unused is neither a table nor a frame of the segment
    rw [h.bytes x fun hn => hx (h.built.inUse _ hn)]
    unfold segmentMem
    rw [if_neg]
    · exact hl.unused x fun hn => hx (h.inUse _ hn)
    · rintro ⟨h1, h2⟩
      have haligned := h.aligned
      refine hx ?_
      have hin := (h.fresh (x / 4096 - addr / 4096) (by omega)).2.1
      rwa [show addr / 4096 + (x / 4096 - addr / 4096) = x / 4096 by omega] at hin
  · rcases h.walks w hc hw with ⟨-, heq⟩ | ⟨i, hi, hlast, hidx, heq⟩
    · have htr' : translate s.mem pml4 w = some a := by rwa [Paging.translate, ← heq]
      obtain ⟨pre, p, post, i, rfl, hi, hlast, hidx, hs⟩ := hl.mapped w a hc hw htr'
      exact ⟨pre, p, post ++ [ph], i, by simp, hi, hlast, hidx, hs.step h ht⟩
    · obtain ⟨a', htr', hs⟩ := h.shows ht hl hrange hi heq
      rw [htr] at htr'
      obtain rfl := Option.some.inj htr'
      exact ⟨ps, ph, [], i, rfl, hi, hlast, hidx, hs⟩
  · rcases concat_eq_append_cons hps with ⟨post', rfl, rfl⟩ | ⟨rfl, rfl, rfl⟩
    · -- an earlier segment: all its pages lie below the pages mapped now
      obtain ⟨a, htr, hs⟩ := hl.loaded pre p post' rfl hlast k hk
      have htp := hts p (by simp)
      have hcw := htp.bytes k hk
      have hpstart := htp.startPage_eq.1
      have hple : p.lastPage ≤ lastAfter (pre ++ p :: post') := by
        have hbelow := lastAfter_lt_iff.mp (Nat.lt_succ_self (lastAfter (pre ++ p :: post')))
        have := hbelow.2 p (by simp)
        omega
      refine ⟨a, ?_, hs.step h ht⟩
      have hslot : S (index (p.vaddr + k) 39) := by
        have hi := htp.slots ((p.vaddr + k - p.startPage) / 4096) (by omega)
        obtain ⟨-, hlt, -⟩ := htp.bounds h511
        unfold ProgramHeader.lastPage at hlt
        rw [wrap_of_lt (by omega)] at hi
        rwa [index_of_same_page (w := p.vaddr + k) (by omega) (by decide)] at hi
      rcases h.walks _ hcw hslot with ⟨-, heq⟩ | ⟨i, hi, hlasti, hidx, -⟩
      · rw [Paging.translate, heq]
        exact htr
      · refine absurd hidx (indices_ne hcw (ht.near h511 hi) ?_)
        unfold ProgramHeader.lastPage at hple
        omega
    · -- the segment itself
      have hcw := ht.bytes k hk
      obtain ⟨-, hlt, -⟩ := ht.bounds h511
      unfold ProgramHeader.lastPage at hlt
      set i := (ph.vaddr + k - ph.startPage) / 4096 with hidef
      have hi : i < ph.memsz / 4096 + 2 := by omega
      have hpage : (ph.vaddr + k) / 4096 = (ph.startPage + 4096 * i) / 4096 := by omega
      have hslot : S (index (ph.vaddr + k) 39) := by
        have hslot := ht.slots i hi
        rw [wrap_of_lt (by omega)] at hslot
        rwa [index_of_same_page hpage (by decide)]
      rcases h.walks _ hcw hslot with ⟨hne, -⟩ | ⟨j, hj, -, hidx, heq⟩
      · exact absurd (indices_of_same_page hpage) (hne i hi (by omega))
      · have hji : j = i := by
          rw [indices_eq_iff] at hidx
          have hmem := (ht.bounds h511).1
          omega
        subst hji
        obtain ⟨a, htr, hs⟩ := h.shows ht hl hrange hi heq
        refine ⟨a, htr, ?_⟩
        rwa [show ph.startPage + 4096 * i + (ph.vaddr + k) % 4096 = ph.vaddr + k by omega] at hs

/-! ## The load loop -/

/-- The slots of the PML4 that are empty. -/
def emptySlots (m : Mem) (pml4 : Nat) (i : Fin 512) : Prop :=
  present (tables m (frameOf pml4) i) = false

/-- What the loop starts from: the new PML4, with slot 511 linked to itself, and the
kernel file are in frames in use, and the pages of the segments lie in empty slots. -/
structure Ready (bs : BootServices F) (pml4 elf len : Nat) (s : Loader F) : Prop where
  root : FrameAddr pml4
  rootInUse : bs.inUse s.firmware (frameOf pml4)
  selfMap : present (tables s.mem (frameOf pml4) 511) = true
  bound : elf + len ≤ 2 ^ 47
  fileInUse : ∀ x, elf ≤ x → x < elf + len → bs.inUse s.firmware (x / 4096)
  fileApart : ∀ x, elf ≤ x → x < elf + len → x / 4096 ≠ frameOf pml4
  file : KernelFile s.mem elf len
  target : ∀ ph ∈ loadable (headers s.mem elf), Target (emptySlots s.mem pml4) ph

theorem Ready.not_slot (h : Ready bs pml4 elf len s) : ¬emptySlots s.mem pml4 511 := by
  unfold emptySlots
  rw [h.selfMap]
  decide

/-- Before the loop the PML4 is the only table behind the empty slots. -/
theorem tableAt_emptySlots {m : Mem} {p : List (Fin 512)}
    (hp : (slotPaths (emptySlots m pml4)).mem p) :
    tableAt m pml4 p = if p = [] then some (frameOf pml4) else none := by
  cases p with
  | nil => rfl
  | cons i p =>
    have hi := link_of_not_present (hp.2 i rfl)
    rw [if_neg (List.cons_ne_nil i p), tableAt, Tables.descend, hi, Option.bind_none]

theorem isTableIn_emptySlots {m : Mem} {n : Nat} (h : IsTableIn (emptySlots m pml4) m pml4 n) :
    n = frameOf pml4 := by
  obtain ⟨p, hp, hn⟩ := h
  rw [tableAt_emptySlots hp] at hn
  split_ifs at hn
  exact (Option.some.inj hn).symm

theorem Ready.loaded (h : Ready bs pml4 elf len s) :
    Loaded bs (emptySlots s.mem pml4) pml4 elf len s [] s := by
  have hnil : ∀ {p : List (Fin 512)} {n : Nat}, (slotPaths (emptySlots s.mem pml4)).mem p →
      tableAt s.mem pml4 p = some n → p = [] := by
    intro p n hp hn
    rw [tableAt_emptySlots hp] at hn
    split_ifs at hn with hc
    exact hc
  refine ⟨⟨⟨fun p q n hp hq hn hn' => ?_, fun n hn => ?_, fun n i hn hi hpres => ?_⟩,
    fun v hv p i hu e he hpres => ?_⟩, ⟨h.bound, h.fileInUse, fun x h1 h2 hn => ?_⟩, fun _ _ _ => rfl,
    fun _ hn => hn, fun _ _ => rfl, fun w a hc hw htr => ?_, fun pre ph post hps => ?_⟩
  · rw [hnil hp hn, hnil hq hn']
  · rw [isTableIn_emptySlots hn]
    exact h.rootInUse
  · have hslot := hi (isTableIn_emptySlots hn)
    rw [isTableIn_emptySlots hn] at hpres
    unfold emptySlots at hslot
    rw [hslot] at hpres
    exact absurd hpres (by decide)
  · obtain ⟨hp, hpi⟩ := hu.mem (S := emptySlots s.mem pml4) hv
    obtain ⟨n, hn, rfl⟩ := Option.map_eq_some_iff.mp he
    obtain rfl := hnil hp hn
    have hslot : emptySlots s.mem pml4 i := hpi.2 i rfl
    obtain rfl := Option.some.inj hn
    unfold emptySlots at hslot
    rw [hslot] at hpres
    exact absurd hpres (by decide)
  · exact h.fileApart x h1 h2 (isTableIn_emptySlots hn)
  · -- nothing is mapped in an empty slot
    have hnone : walk s.mem pml4 w = none := by
      rw [walk, if_pos hc, indices, walkFrom, if_pos]
      unfold emptySlots at hw
      rw [hw]
      exact Bool.false_ne_true
    rw [Paging.translate, hnone] at htr
    cases htr
  · simp at hps

/-- A program header is read as the file has it. -/
theorem headerAt_eq {m m' : Mem} {a : Nat} (h : ∀ x, a ≤ x → x < a + 56 → m' x = m x) :
    headerAt m' a = headerAt m a := by
  have hload : ∀ k n, k + n ≤ 56 → m'.loadLE (a + k) n = m.loadLE (a + k) n := fun k n hk =>
    Mem.loadLE_congr fun x h1 h2 => h x (by omega) (by omega)
  have htype : m'.loadLE a 4 = m.loadLE a 4 := hload 0 4 (by decide)
  simp only [headerAt, Mem.load64, htype, hload 8 8 (by decide), hload 16 8 (by decide),
    hload 32 8 (by decide), hload 40 8 (by decide)]

theorem headersFrom_succ (m : Mem) (start size i k : Nat) :
    headersFrom m start size i (k + 1) =
      headerAt m (wrap (start + size * i)) :: headersFrom m start size (i + 1) k := rfl

theorem loadable_cons_of_load {ph : ProgramHeader} {hs : List ProgramHeader}
    (h : ph.type = ptLoad) : loadable (ph :: hs) = ph :: loadable hs := by
  rw [loadable, List.filter_cons_of_pos (by simpa using h)]
  rfl

theorem loadable_cons_of_not_load {ph : ProgramHeader} {hs : List ProgramHeader}
    (h : ph.type ≠ ptLoad) : loadable (ph :: hs) = loadable hs := by
  rw [loadable, List.filter_cons_of_neg (by simpa using h)]
  rfl

/-- The load loop takes the segments one after the other. -/
theorem loadSegments_spec (hroot : FrameAddr pml4) (h511 : ¬S 511) {start size i k : Nat}
    {ps : List ProgramHeader} (hl : Loaded bs S pml4 elf len s₀ ps s) (hts : ∀ q ∈ ps, Target S q)
    (htable : ∀ j, i ≤ j → j < i + k →
      elf ≤ wrap (start + size * j) ∧ wrap (start + size * j) + 56 ≤ elf + len)
    (hheaders : ∀ ph ∈ loadable (headersFrom s₀.mem start size i k),
      Target S ph ∧ ph.filesz ≤ ph.memsz ∧ ph.offset + ph.filesz ≤ len)
    (hret : (loadSegments bs pml4 elf start size k i (lastAfter ps)).Returns s () s') :
    Loaded bs S pml4 elf len s₀ (ps ++ loadable (headersFrom s₀.mem start size i k)) s' := by
  induction k generalizing i ps s with
  | zero =>
    obtain ⟨-, rfl⟩ := (Outcome.returns_pure _ _).det hret
    simpa [headersFrom, loadable] using hl
  | succ k ih =>
    unfold loadSegments at hret
    obtain ⟨ph, s₁, hread, hret⟩ := Outcome.returns_bind_iff.mp hret
    obtain ⟨rfl, rfl⟩ := (Outcome.returns_gets _ s).det hread
    obtain ⟨last, s₁, hseg, hret⟩ := Outcome.returns_bind_iff.mp hret
    have hph : headerAt s.mem (wrap (start + size * i)) =
        headerAt s₀.mem (wrap (start + size * i)) := by
      obtain ⟨h1, h2⟩ := htable i (Nat.le_refl _) (by omega)
      exact headerAt_eq fun x h3 h4 => hl.fileBytes x (by omega) (by omega)
    rw [hph] at hseg
    rw [headersFrom_succ] at hheaders ⊢
    set ph := headerAt s₀.mem (wrap (start + size * i))
    have hrest : ∀ j, i + 1 ≤ j → j < i + 1 + k →
        elf ≤ wrap (start + size * j) ∧ wrap (start + size * j) + 56 ≤ elf + len :=
      fun j h1 h2 => htable j (by omega) (by omega)
    by_cases htype : ph.type = ptLoad
    · rw [loadHeader, if_pos htype] at hseg
      rw [loadable_cons_of_load htype] at hheaders ⊢
      obtain ⟨ht, hsz, hrange⟩ := hheaders ph List.mem_cons_self
      obtain ⟨rfl, addr, hloaded⟩ :=
        loadSegment_spec hroot h511 hl.built hl.file ht hsz hrange hseg
      have hstep := hl.step h511 hts ht hrange hloaded
      rw [← lastAfter_concat] at hret
      have hts' : ∀ q ∈ ps ++ [ph], Target S q := by
        intro q hq
        rcases List.mem_append.mp hq with hq | hq
        · exact hts q hq
        · rwa [List.mem_singleton.mp hq]
      have := ih hstep hts' hrest (fun q hq => hheaders q (List.mem_cons_of_mem _ hq)) hret
      rwa [List.append_assoc, List.singleton_append] at this
    · rw [loadHeader, if_neg htype] at hseg
      obtain ⟨rfl, rfl⟩ := (Outcome.returns_pure _ _).det hseg
      rw [loadable_cons_of_not_load htype] at hheaders ⊢
      exact ih hl hts hrest hheaders hret

/-- The program headers lie in the file. -/
theorem Ready.tableIn (h : Ready bs pml4 elf len s) :
    ∀ j, 0 ≤ j → j < 0 + s.mem.loadLE (elf + 56) 2 →
      elf ≤ wrap (wrap (elf + s.mem.loadLE (elf + 32) 8) + s.mem.loadLE (elf + 54) 2 * j) ∧
        wrap (wrap (elf + s.mem.loadLE (elf + 32) 8) + s.mem.loadLE (elf + 54) 2 * j) + 56 ≤
          elf + len := by
  intro j _ hj
  have hbound := h.bound
  have htable := h.file.table j (by omega)
  rw [wrap_of_lt (x := elf + _) (by omega), wrap_of_lt (by omega)]
  omega

/-- The state after the load loop. -/
theorem loadKernel_loaded (h : Ready bs pml4 elf len s)
    (hret : (loadKernel bs pml4 elf).Returns s () s') :
    Loaded bs (emptySlots s.mem pml4) pml4 elf len s (loadable (headers s.mem elf)) s' := by
  unfold loadKernel at hret
  obtain ⟨phoff, s₁, h₁, hret⟩ := Outcome.returns_bind_iff.mp hret
  obtain ⟨rfl, rfl⟩ := (returns_readPhys _ _).det h₁
  obtain ⟨size, s₁, h₁, hret⟩ := Outcome.returns_bind_iff.mp hret
  obtain ⟨rfl, rfl⟩ := (returns_readPhys _ _).det h₁
  obtain ⟨count, s₁, h₁, hret⟩ := Outcome.returns_bind_iff.mp hret
  obtain ⟨rfl, rfl⟩ := (returns_readPhys _ _).det h₁
  exact loadSegments_spec h.root h.not_slot h.loaded (by simp) h.tableIn
    (fun ph hph => ⟨h.target ph hph, h.file.sizes ph hph, h.file.ranges ph hph⟩) hret

end KoalemOS.Boot
