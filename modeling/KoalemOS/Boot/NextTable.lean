import KoalemOS.Boot.Loader
import KoalemOS.Paging.Tree

/-!
# One more table on the path of an address

The tables behind the empty slots `S` of the new PML4 are all built by the loader, in
frames the firmware gives (`Tabled`). `nextTable` makes sure of one more table: it adds
tables and makes entries writable, and changes no walk (`Grew`). Where the firmware has no
frame left it stops and has changed nothing.
-/

namespace KoalemOS.Boot

open KoalemOS.Library KoalemOS.Paging

variable {F : Type} {bs : BootServices F} {S : Fin 512 → Prop} {pml4 : Nat} {s s' s'' : Loader F}

/-! ## Invariant and steps -/

/-- The tables behind the slots in `S` are a tree in frames that are in use, with entries of
at most 52 bits. -/
structure Tabled (bs : BootServices F) (S : Fin 512 → Prop) (pml4 : Nat) (s : Loader F) :
    Prop where
  tree : Tables.IsTree link (slotPaths S) (tables s.mem) (frameOf pml4)
  inUse : ∀ n, IsTableIn S s.mem pml4 n → bs.inUse s.firmware n
  small : ∀ n i, IsTableIn S s.mem pml4 n → (n = frameOf pml4 → S i) →
    present (tables s.mem n i) = true → tables s.mem n i < 2 ^ 52

/-- An entry maps no large page. -/
def NotLargeAt (m : Mem) (pml4 : Nat) (p : List (Fin 512)) (i : Fin 512) : Prop :=
  ∀ e, entries m pml4 p i = some e → present e = true → pageSize e = false

/-- From `s` to `s'` tables may have been added, and entries that link made writable. -/
structure Grew (bs : BootServices F) (S : Fin 512 → Prop) (pml4 : Nat) (s s' : Loader F) :
    Prop where
  tabled : Tabled bs S pml4 s'
  keep : ∀ p n, (slotPaths S).mem p → tableAt s.mem pml4 p = some n →
    tableAt s'.mem pml4 p = some n
  inUse : ∀ n, bs.inUse s.firmware n → bs.inUse s'.firmware n
  notTable : ∀ n, bs.inUse s.firmware n → ¬IsTableIn S s.mem pml4 n → ¬IsTableIn S s'.mem pml4 n
  bytes : ∀ x, ¬IsTableIn S s'.mem pml4 (x / 4096) → s'.mem x = s.mem x
  root : ∀ i, ¬S i → tables s'.mem (frameOf pml4) i = tables s.mem (frameOf pml4) i
  walk : ∀ v, S (index v 39) → walk s'.mem pml4 v = walk s.mem pml4 v
  notLarge : ∀ p i, (slotPaths S).mem (p ++ [i]) → NotLargeAt s.mem pml4 p i →
    NotLargeAt s'.mem pml4 p i
  writable : ∀ p i n, (slotPaths S).mem (p ++ [i]) → tableAt s.mem pml4 p = some n →
    link (tables s.mem n i) ≠ none → readWrite (tables s.mem n i) = true →
    readWrite (tables s'.mem n i) = true

theorem Grew.isTable (h : Grew bs S pml4 s s') {n : Nat} (hn : IsTableIn S s.mem pml4 n) :
    IsTableIn S s'.mem pml4 n := by
  obtain ⟨p, hp, hpn⟩ := hn
  exact ⟨p, hp, h.keep p n hp hpn⟩

theorem Grew.refl (h : Tabled bs S pml4 s) : Grew bs S pml4 s s where
  tabled := h
  keep _ _ _ hn := hn
  inUse _ hn := hn
  notTable _ _ hn := hn
  bytes _ _ := rfl
  root _ _ := rfl
  walk _ _ := rfl
  notLarge _ _ _ hl := hl
  writable _ _ _ _ _ _ hw := hw

theorem Grew.trans (h : Grew bs S pml4 s s') (h' : Grew bs S pml4 s' s'') :
    Grew bs S pml4 s s'' where
  tabled := h'.tabled
  keep p n hp hn := h'.keep p n hp (h.keep p n hp hn)
  inUse n hn := h'.inUse n (h.inUse n hn)
  notTable n hn ht := h'.notTable n (h.inUse n hn) (h.notTable n hn ht)
  bytes x hx := (h'.bytes x hx).trans (h.bytes x fun ht => hx (h'.isTable ht))
  root i hi := (h'.root i hi).trans (h.root i hi)
  walk v hv := (h'.walk v hv).trans (h.walk v hv)
  notLarge p i hp hl := h'.notLarge p i hp (h.notLarge p i hp hl)
  writable p i n hp hn hl hw := by
    have hp' := (slotPaths S).init_mem p i hp
    -- the entry links in `s'` too, since the table behind it is kept
    obtain ⟨k, hk⟩ := Option.ne_none_iff_exists'.mp hl
    have hnext : tableAt s.mem pml4 (p ++ [i]) = some k := by
      rw [tableAt_concat, hn, Option.bind_some, hk]
    have hn' := h.keep p n hp' hn
    have hl' : link (tables s'.mem n i) ≠ none := by
      have hnext' := h.keep _ k hp hnext
      rw [tableAt_concat, hn', Option.bind_some] at hnext'
      rw [hnext']
      exact Option.some_ne_none k
    exact h'.writable p i n hp hn' hl' (h.writable p i n hp hn hl hw)

/-- A label of the PML4 at the end of a path is one of the slots. -/
theorem Tabled.slot_of_root (h : Tabled bs S pml4 s) {p : List (Fin 512)} {i : Fin 512}
    (hp : (slotPaths S).mem (p ++ [i])) (hn : tableAt s.mem pml4 p = some (frameOf pml4)) : S i := by
  have hp' := (slotPaths S).init_mem p i hp
  have hnil := h.tree [] p _ (slotPaths S).nil_mem hp' rfl hn
  subst hnil
  exact hp.2 i rfl

/-- An edit of one entry keeps the bound on the entries. -/
theorem Tabled.small_set {n e : Nat} {i : Fin 512} {m' : Mem} (h : Tabled bs S pml4 s)
    (hreach : ∀ k, IsTableIn S m' pml4 k → IsTableIn S s.mem pml4 k)
    (hm : tables m' = (tables s.mem).set n i e) (he : e < 2 ^ 52) :
    ∀ k j, IsTableIn S m' pml4 k → (k = frameOf pml4 → S j) →
      present (tables m' k j) = true → tables m' k j < 2 ^ 52 := by
  intro k j hk hj hp
  rw [hm] at hp ⊢
  by_cases hc : k = n ∧ j = i
  · obtain ⟨rfl, rfl⟩ := hc
    rwa [Tables.set_apply_self]
  · have hne : k ≠ n ∨ j ≠ i := by
      by_contra h'
      push Not at h'
      exact hc h'
    rw [Tables.set_apply_of_ne hne] at hp ⊢
    exact h.small k j (hreach k hk) hj hp

/-! ## The firmware -/

theorem allocatePages_eq {pages addr : Nat}
    (h : (allocatePages bs pages).Returns s addr s') :
    bs.allocatePages s.firmware pages = (.ok addr, s'.firmware) ∧ s'.mem = s.mem := by
  unfold Outcome.Returns allocatePages at h
  simp only [Prod.mk.injEq] at h
  obtain ⟨h1, rfl⟩ := h
  exact ⟨Prod.ext h1 rfl, rfl⟩

theorem allocatePages_stops {pages e : Nat} (h : (allocatePages bs pages).Stops s e s') :
    bs.allocatePages s.firmware pages = (.error e, s'.firmware) ∧ s'.mem = s.mem := by
  unfold Outcome.Stops allocatePages at h
  simp only [Prod.mk.injEq] at h
  obtain ⟨h1, rfl⟩ := h
  exact ⟨Prod.ext h1 rfl, rfl⟩

theorem returns_readPhys (a n : Nat) : (readPhys a n).Returns s (s.mem.loadLE a n) s := rfl

theorem returns_writePhys (a x : Nat) :
    (writePhys a x).Returns s () { s with mem := s.mem.store64 a x } := rfl

/-- A load of an entry. -/
theorem returns_readEntry (n : Nat) (i : Fin 512) :
    (readPhys (4096 * n + 8 * i) 8).Returns s (tables s.mem n i) s := returns_readPhys _ _

/-- The loop that zeroes a new table. -/
theorem returns_zeroTable (f : Nat) :
    (Outcome.loop 0 512 fun k => writePhys (4096 * f + 8 * k) 0).Returns s ()
      { s with mem := zeroSlots s.mem f 512 } := by
  have hloop : (Outcome.loop 0 512 fun k => writePhys (4096 * f + 8 * k) 0).Returns _ () _ :=
    Outcome.returns_loop (fun k => { s with mem := zeroSlots s.mem f k }) 0 512 fun k _ _ =>
      returns_writePhys (s := { s with mem := zeroSlots s.mem f k }) _ _
  rwa [Nat.zero_add] at hloop

theorem tables_zeroTable (m : Mem) (f : Nat) : tables (zeroSlots m f 512) = (tables m).clear f 0 := by
  funext n i
  rw [tables_zeroSlots m f 512 (Nat.le_refl _)]
  unfold Tables.clear
  simp only [i.isLt, and_true]

/-! ## Two steps -/

/-- `NEXT_STRUCT` follows a link of 52 bits. -/
theorem nextStruct_of_link {e f : Nat} (he : e < 2 ^ 52) (hl : link e = some f) :
    nextStruct e = 4096 * f := by
  obtain ⟨-, -, hf⟩ := link_eq_some.mp hl
  have hmask : nextStruct e = e / 2 ^ 12 % 2 ^ 52 * 2 ^ 12 := land_shifted_mask e 12 52
  rw [hmask, ← hf]
  unfold frameOf
  omega

/-- The next table is there: `p ++ [i]` leads to it, its link is writable, and no other
path leads elsewhere. -/
structure NextTable (s s' : Loader F) (pml4 : Nat) (S : Fin 512 → Prop) (p : List (Fin 512))
    (i : Fin 512) (n f : Nat) : Prop where
  table : tableAt s'.mem pml4 (p ++ [i]) = some f
  parent : tableAt s'.mem pml4 p = some n
  writable : readWrite (tables s'.mem n i) = true
  others : ∀ q, (slotPaths S).mem q → q ≠ p ++ [i] → tableAt s'.mem pml4 q = tableAt s.mem pml4 q

section Steps

variable {p : List (Fin 512)} {i : Fin 512} {n a : Nat}

/-- A frame that was in use and was no table is none of the tables after a growth. -/
private theorem not_of_reach {fresh : List Nat} (hg : GrownIn S pml4 s.mem s'.mem fresh)
    (hfresh : ∀ f ∈ fresh, ¬bs.inUse s.firmware f) {k : Nat} (hin : bs.inUse s.firmware k)
    (ht : ¬IsTableIn S s.mem pml4 k) : ¬IsTableIn S s'.mem pml4 k :=
  fun ht' => (hg.reach k ht').elim ht fun hf => hfresh k hf hin

private theorem bytes_of_grownIn {fresh : List Nat} (hg : GrownIn S pml4 s.mem s'.mem fresh) {x : Nat}
    (hx : ¬IsTableIn S s'.mem pml4 (x / 4096)) : s'.mem x = s.mem x := by
  refine byte_eq_of_row_eq (hg.rows (x / 4096) (fun ht => hx (hg.isTable_mono ht)) fun hf => ?_) rfl
  exact hx (hg.isTable _ hf)

/-- The table is there already: the entry only becomes writable. -/
theorem Grew.of_writable (t : Loader F) (h : Tabled bs S pml4 s) (hp : (slotPaths S).mem (p ++ [i]))
    (hn : tableAt s.mem pml4 p = some n) {f : Nat} (hl : link (tables s.mem n i) = some f)
    (hs : tables s.mem n i < 2 ^ 52) (hfw : t.firmware = s.firmware)
    (hm : t.mem = s.mem.store64 (4096 * n + 8 * i) (tables s.mem n i ||| pagingFlagReadWrite)) :
    Grew bs S pml4 s t ∧ NextTable s t pml4 S p i n f ∧
      nextStruct (tables t.mem n i) = 4096 * f := by
  have hp' := (slotPaths S).init_mem p i hp
  have hlt : tables s.mem n i ||| pagingFlagReadWrite < 2 ^ 52 :=
    Nat.or_lt_two_pow hs (by decide)
  have hlink := link_or (e := tables s.mem n i) flagsOk_readWrite
  have hset : tables t.mem = (tables s.mem).set n i (tables s.mem n i ||| pagingFlagReadWrite) := by
    rw [hm]
    exact tables_store64 _ _ _ (by omega)
  have hself : tables t.mem n i = tables s.mem n i ||| pagingFlagReadWrite := by
    rw [hset, Tables.set_apply_self]
  have hg : GrownIn S pml4 s.mem t.mem [] :=
    GrownIn.of_link_edit h.tree hp hn (by rw [hl]; exact Option.some_ne_none f) hlink hset
  have hdesc : ∀ q, tableAt t.mem pml4 q = tableAt s.mem pml4 q := fun q => by
    rw [tableAt, hset, Tables.descend_set_link hlink]
  have hreach : ∀ k, IsTableIn S t.mem pml4 k → IsTableIn S s.mem pml4 k := by
    rintro k ⟨q, hq, hk⟩
    exact ⟨q, hq, by rwa [hdesc q] at hk⟩
  have htable : tableAt s.mem pml4 (p ++ [i]) = some f := by
    rw [tableAt_concat, hn, Option.bind_some, hl]
  have hpage : pageSize (tables s.mem n i ||| pagingFlagReadWrite) = false := by
    rw [pageSize_or (by decide)]
    exact (link_eq_some.mp hl).2.1
  have hwrite : readWrite (tables s.mem n i ||| pagingFlagReadWrite) = true := by
    rw [readWrite_or, show readWrite pagingFlagReadWrite = true from rfl, Bool.or_true]
  refine ⟨⟨⟨hg.tree, fun k hk => ?_, h.small_set hreach hset hlt⟩, hg.keep, fun k hk => ?_,
    fun k _ ht ht' => ht (hreach k ht'), fun x hx => bytes_of_grownIn hg hx, fun j hj => ?_, hg.walk,
    fun q j hq hlarge e he hpres => ?_, fun q j k hq hk _ hw => ?_⟩,
    ⟨by rw [hdesc, htable], by rw [hdesc, hn], by rw [hself, hwrite], fun q _ _ => hdesc q⟩, ?_⟩
  · rw [hfw]
    exact h.inUse k (hreach k hk)
  · rwa [hfw]
  · rw [hset, Tables.set_apply_of_ne]
    by_contra hc
    push Not at hc
    obtain ⟨hroot, rfl⟩ := hc
    rw [← hroot] at hn
    exact hj (h.slot_of_root hp hn)
  · rw [entries, hset, Tables.entryAt_set_link h.tree hp' hn hlink
      ((slotPaths S).init_mem q j hq)] at he
    split_ifs at he with hc
    · rw [← Option.some.inj he]
      exact hpage
    · exact hlarge e he hpres
  · rw [hset]
    by_cases hc : k = n ∧ j = i
    · obtain ⟨rfl, rfl⟩ := hc
      rw [Tables.set_apply_self, hwrite]
    · rw [Tables.set_apply_of_ne]
      · exact hw
      · by_contra h'
        push Not at h'
        exact hc h'
  · rw [hself]
    exact nextStruct_of_link hlt (hlink.trans hl)

/-- The table is missing: a zeroed frame is linked. -/
theorem Grew.of_newTable (t : Loader F) (h : Tabled bs S pml4 s) (hp : (slotPaths S).mem (p ++ [i]))
    (hn : tableAt s.mem pml4 p = some n) (habs : present (tables s.mem n i) = false)
    (ha : FrameAddr a) (hfree : ¬bs.inUse s.firmware (a / 4096))
    (hfw : ∀ k, bs.inUse t.firmware k ↔ bs.inUse s.firmware k ∨ k = a / 4096)
    (hm : t.mem = (zeroSlots s.mem (a / 4096) 512).store64 (4096 * n + 8 * i)
      (a ||| pagingFlagPresent ||| pagingFlagReadWrite)) :
    Grew bs S pml4 s t ∧ NextTable s t pml4 S p i n (a / 4096) ∧
      link (tables t.mem n i) = some (a / 4096) := by
  obtain ⟨hl, hlt64⟩ := link_frame_flags ha flagsOk_readWrite
  have hp' := (slotPaths S).init_mem p i hp
  have hlt : a ||| pagingFlagPresent ||| pagingFlagReadWrite < 2 ^ 52 :=
    Nat.or_lt_two_pow (Nat.or_lt_two_pow (by have := ha.lt; omega) (by decide)) (by decide)
  have hset : tables t.mem = ((tables s.mem).clear (a / 4096) 0).set n i
      (a ||| pagingFlagPresent ||| pagingFlagReadWrite) := by
    rw [hm, tables_store64 _ _ _ hlt64, tables_zeroTable]
  have hself : tables t.mem n i = a ||| pagingFlagPresent ||| pagingFlagReadWrite := by
    rw [hset, Tables.set_apply_self]
  have hnot : ¬IsTableIn S s.mem pml4 (a / 4096) := fun ht => hfree (h.inUse _ ht)
  obtain ⟨hg, hnew⟩ := GrownIn.of_fresh h.tree hp hn habs hl hnot hset
  obtain ⟨-, hdesc, hent⟩ := entries_of_fresh h.tree hp hn habs hl hnot hset
  have hroot : frameOf pml4 ≠ a / 4096 := fun hc => hnot (hc ▸ isTable_root S _ _)
  have hwrite : readWrite (a ||| pagingFlagPresent ||| pagingFlagReadWrite) = true := by
    rw [readWrite_or, show readWrite pagingFlagReadWrite = true from rfl, Bool.or_true]
  have hsmall : ∀ k j, IsTableIn S t.mem pml4 k → (k = frameOf pml4 → S j) →
      present (tables t.mem k j) = true → tables t.mem k j < 2 ^ 52 := by
    intro k j hk hj hpres
    rw [hset] at hpres ⊢
    by_cases hc : k = n ∧ j = i
    · obtain ⟨rfl, rfl⟩ := hc
      rwa [Tables.set_apply_self]
    · have hne : k ≠ n ∨ j ≠ i := by
        by_contra h'
        push Not at h'
        exact hc h'
      rw [Tables.set_apply_of_ne hne] at hpres ⊢
      by_cases hka : k = a / 4096
      · rw [hka, Tables.clear_apply_self]
        decide
      · rw [Tables.clear_apply_of_ne hka] at hpres ⊢
        rcases hg.reach k hk with hk | hk
        · exact h.small k j hk hj hpres
        · exact absurd (List.mem_singleton.mp hk) hka
  refine ⟨⟨⟨hg.tree, fun k hk => ?_, hsmall⟩, hg.keep, fun k hk => (hfw k).mpr (.inl hk),
    fun k hk ht => (not_of_reach hg (fun f hf => ?_) hk ht : ¬IsTableIn S _ pml4 k), fun x hx => bytes_of_grownIn hg hx,
    fun j hj => ?_, hg.walk, fun q j hq hlarge e he hpres => ?_, fun q j k hq hk hlk hw => ?_⟩,
    ⟨hnew, hg.keep p n hp' hn, by rw [hself, hwrite], fun q hq hne => ?_⟩, by rw [hself, hl]⟩
  · rcases hg.reach k hk with hk | hk
    · exact (hfw k).mpr (.inl (h.inUse k hk))
    · exact (hfw k).mpr (.inr (List.mem_singleton.mp hk))
  · rw [List.mem_singleton.mp hf]
    exact hfree
  · rw [hset, Tables.set_apply_of_ne, Tables.clear_apply_of_ne hroot]
    by_contra hc
    push Not at hc
    obtain ⟨hrn, rfl⟩ := hc
    rw [← hrn] at hn
    exact hj (h.slot_of_root hp hn)
  · rw [hent q j ((slotPaths S).init_mem q j hq)] at he
    split_ifs at he with hc hc'
    · rw [← Option.some.inj he]
      exact (link_eq_some.mp hl).2.1
    · rw [← Option.some.inj he] at hpres
      exact absurd hpres (by decide)
    · exact hlarge e he hpres
  · -- the entry that links already is not the one that is new
    have hka : k ≠ a / 4096 := fun hc => hnot ⟨q, (slotPaths S).init_mem q j hq, by rw [hk, hc]⟩
    rw [hset, Tables.set_apply_of_ne, Tables.clear_apply_of_ne hka]
    · exact hw
    · by_contra hc
      push Not at hc
      obtain ⟨rfl, rfl⟩ := hc
      exact hlk (link_of_not_present habs)
  · rw [hdesc q hq, if_neg hne]

/-! ## `nextTable` -/

/-- `newTable` links a fresh table behind an entry that was not present. -/
theorem newTable_spec (h : Tabled bs S pml4 s) (hp : (slotPaths S).mem (p ++ [i]))
    (hn : tableAt s.mem pml4 p = some n) (habs : present (tables s.mem n i) = false)
    (hret : (newTable bs (4096 * n + 8 * i)).Returns s () s') :
    Grew bs S pml4 s s' ∧ ∃ f, NextTable s s' pml4 S p i n f ∧
      link (tables s'.mem n i) = some f := by
  obtain ⟨addr, s₁, halloc, hret⟩ := Outcome.returns_bind_iff.mp hret
  obtain ⟨hcall, hmem⟩ := allocatePages_eq halloc
  have haligned := bs.aligned _ _ _ _ hcall
  have ha : FrameAddr addr := ⟨haligned, by have := bs.mapped _ _ _ _ hcall; omega⟩
  obtain ⟨⟨⟩, s₂, hzero, hret⟩ := Outcome.returns_bind_iff.mp hret
  have hzeroed := returns_zeroTable (s := s₁) (addr / 4096)
  rw [show 4096 * (addr / 4096) = addr by omega] at hzeroed
  obtain ⟨-, rfl⟩ := hzeroed.det hzero
  obtain ⟨-, rfl⟩ := (returns_writePhys _ _).det hret
  obtain ⟨hgrew, hnext, hl⟩ := Grew.of_newTable
    { s₁ with
      mem := (zeroSlots s₁.mem (addr / 4096) 512).store64 (4096 * n + 8 * i)
        (addr ||| pagingFlagPresent ||| pagingFlagReadWrite) }
    h hp hn habs ha (fun hin => bs.fresh _ _ _ _ hcall _ hin ⟨by omega, by omega⟩)
    (fun k => (bs.taken _ _ _ _ hcall k).trans (or_congr Iff.rfl (by omega)))
    (by rw [hmem])
  exact ⟨hgrew, _, hnext, hl⟩

/-- After `ensurePresent` the entry links to a table. -/
theorem ensurePresent_spec (h : Tabled bs S pml4 s) (hp : (slotPaths S).mem (p ++ [i]))
    (hlarge : NotLargeAt s.mem pml4 p i) (hn : tableAt s.mem pml4 p = some n)
    (hret : (ensurePresent bs (4096 * n + 8 * i)).Returns s () s') :
    Grew bs S pml4 s s' ∧ tableAt s'.mem pml4 p = some n ∧
      (∃ f, link (tables s'.mem n i) = some f) ∧
      ∀ q, (slotPaths S).mem q → q ≠ p ++ [i] → tableAt s'.mem pml4 q = tableAt s.mem pml4 q := by
  obtain ⟨e, s₀, he, hret⟩ := Outcome.returns_bind_iff.mp hret
  obtain ⟨rfl, rfl⟩ := (returns_readEntry n i).det he
  by_cases hpres : present (tables s.mem n i) = true
  · rw [if_pos hpres] at hret
    obtain ⟨-, rfl⟩ := (Outcome.returns_pure _ _).det hret
    have hsmall := hlarge _ (entries_of_tableAt hn i) hpres
    exact ⟨.refl h, hn, ⟨_, link_eq_some.mpr ⟨hpres, hsmall, rfl⟩⟩, fun _ _ _ => rfl⟩
  · rw [if_neg hpres] at hret
    obtain ⟨hgrew, f, hnext, hl⟩ := newTable_spec h hp hn (by simpa using hpres) hret
    exact ⟨hgrew, hnext.parent, ⟨f, hl⟩, hnext.others⟩

/-- `nextTable` makes sure of the next table and returns its address. -/
theorem nextTable_spec (h : Tabled bs S pml4 s) (hp : (slotPaths S).mem (p ++ [i]))
    (hlarge : NotLargeAt s.mem pml4 p i) (hn : tableAt s.mem pml4 p = some n)
    (hret : (nextTable bs (4096 * n) i).Returns s a s') :
    Grew bs S pml4 s s' ∧ ∃ f, NextTable s s' pml4 S p i n f ∧ a = 4096 * f := by
  have hp' := (slotPaths S).init_mem p i hp
  unfold nextTable at hret
  obtain ⟨⟨⟩, s₁, hensure, hret⟩ := Outcome.returns_bind_iff.mp hret
  obtain ⟨e₁, s₂, he₁, hret⟩ := Outcome.returns_bind_iff.mp hret
  obtain ⟨rfl, rfl⟩ := (returns_readEntry n i).det he₁
  obtain ⟨⟨⟩, s₃, hw, hret⟩ := Outcome.returns_bind_iff.mp hret
  obtain ⟨-, rfl⟩ := (returns_writePhys _ _).det hw
  obtain ⟨e₄, s₅, he₄, hret⟩ := Outcome.returns_bind_iff.mp hret
  obtain ⟨rfl, rfl⟩ := (returns_readEntry n i).det he₄
  obtain ⟨rfl, rfl⟩ := (Outcome.returns_pure _ _).det hret
  -- after the first step the entry is a link, and the second makes it writable
  obtain ⟨hgrew, hn₁, ⟨f, hf⟩, hothers⟩ := ensurePresent_spec h hp hlarge hn hensure
  have hroot : n = frameOf pml4 → S i := by
    rintro rfl
    exact hgrew.tabled.slot_of_root hp hn₁
  have hsmall := hgrew.tabled.small n i ⟨p, hp', hn₁⟩ hroot (link_eq_some.mp hf).1
  obtain ⟨hgrew', hnext, haddr⟩ := Grew.of_writable
    { s₁ with
      mem := s₁.mem.store64 (4096 * n + 8 * i) (tables s₁.mem n i ||| pagingFlagReadWrite) }
    hgrew.tabled hp hn₁ hf hsmall rfl rfl
  refine ⟨hgrew.trans hgrew', f, ⟨hnext.table, hnext.parent, hnext.writable, fun q hq hne => ?_⟩,
    haddr⟩
  exact (hnext.others q hq hne).trans (hothers q hq hne)

theorem neverStops_writePhys (a x : Nat) : (writePhys (F := F) a x).NeverStops :=
  Outcome.neverStops_modify _

theorem neverStops_readPhys (a n : Nat) : (readPhys (F := F) a n).NeverStops :=
  Outcome.neverStops_gets _

/-- `nextTable` stops where the firmware has no frame, before any store. -/
theorem nextTable_stops {table e : Nat} (h : (nextTable bs table i).Stops s e s') :
    s'.mem = s.mem ∧ bs.allocatePages s.firmware 1 = (.error e, s'.firmware) := by
  unfold nextTable at h
  rcases Outcome.stops_bind_iff.mp h with h | ⟨⟨⟩, s₁, -, h⟩
  · unfold ensurePresent at h
    rcases Outcome.stops_bind_iff.mp h with h | ⟨e', s₀, he, h⟩
    · exact absurd h (neverStops_readPhys _ _ _ _ _)
    obtain ⟨rfl, rfl⟩ := (returns_readPhys _ _).det he
    split_ifs at h
    · exact absurd h (Outcome.neverStops_pure _ _ _ _)
    · rcases Outcome.stops_bind_iff.mp h with h | ⟨addr, s₁, -, h⟩
      · obtain ⟨hcall, hmem⟩ := allocatePages_stops h
        exact ⟨hmem, hcall⟩
      · have hstores : (Outcome.loop 0 512 (fun k => writePhys (F := F) (addr + 8 * k) 0) >>= fun _ =>
            writePhys (table + 8 * i)
              (addr ||| pagingFlagPresent ||| pagingFlagReadWrite)).NeverStops :=
          (Outcome.NeverStops.loop (fun _ => neverStops_writePhys _ _) 0 512).bind
            fun _ => neverStops_writePhys _ _
        exact absurd h (hstores _ _ _)
  · -- the accesses behind the allocation never stop
    refine absurd h (Outcome.NeverStops.bind (neverStops_readPhys _ _) (fun _ => ?_) _ _ _)
    exact (neverStops_writePhys _ _).bind fun _ => (neverStops_readPhys _ _).bind
      fun _ => Outcome.neverStops_pure _

end Steps

end KoalemOS.Boot
