import KoalemOS.Boot.Faithful
import KoalemOS.Paging.LeafEdits

/-!
# Sequences of `add_page_mapping`

Calls for pages of all three sizes, any of which may fail for want of a frame. A call walks
down to the table of the leaf entry (`AtTable`) and writes the entry there. All it changes
is the tables of the loader (`Inside`), so the walks of the other addresses stay, those of
the firmware's slots included (`Inside.foreign`).
-/

namespace KoalemOS.Boot

open KoalemOS.Library KoalemOS.Paging

variable {F : Type} {bs : BootServices F} {S : Fin 512 → Prop} {pml4 : Nat} {s s' s'' : Loader F}

/-! ## Changes inside the loader's tables -/

/-- From `s` to `s'` only tables behind the slots in `S` and frames that were free have
changed. -/
structure Inside (bs : BootServices F) (S : Fin 512 → Prop) (pml4 : Nat) (s s' : Loader F) :
    Prop where
  inUse : ∀ n, bs.inUse s.firmware n → bs.inUse s'.firmware n
  notTable : ∀ n, bs.inUse s.firmware n → ¬IsTableIn S s.mem pml4 n → ¬IsTableIn S s'.mem pml4 n
  bytes : ∀ x, ¬IsTableIn S s'.mem pml4 (x / 4096) → s'.mem x = s.mem x
  root : ∀ i, ¬S i → tables s'.mem (frameOf pml4) i = tables s.mem (frameOf pml4) i

theorem Grew.inside (h : Grew bs S pml4 s s') : Inside bs S pml4 s s' :=
  ⟨h.inUse, h.notTable, h.bytes, h.root⟩

/-- Frame `n` holds a table behind a slot of the firmware. -/
def Foreign (S : Fin 512 → Prop) (m : Mem) (pml4 n : Nat) : Prop :=
  ∃ i p, ¬S i ∧ i ≠ 511 ∧ p.length ≤ 2 ∧ tableAt m pml4 (i :: p) = some n

/-- The firmware's tables are in use and none of the loader's. -/
def Separate (bs : BootServices F) (S : Fin 512 → Prop) (pml4 : Nat) (s : Loader F) : Prop :=
  ∀ n, Foreign S s.mem pml4 n → bs.inUse s.firmware n ∧ ¬IsTableIn S s.mem pml4 n

/-- The firmware's tables stay what they are. -/
theorem Inside.row (h : Inside bs S pml4 s s') (hsep : Separate bs S pml4 s) {n : Nat}
    (hn : Foreign S s.mem pml4 n) : tables s'.mem n = tables s.mem n := by
  obtain ⟨hin, hnot⟩ := hsep n hn
  refine row_eq_of_bytes_eq fun x hx => h.bytes x ?_
  rw [hx]
  exact h.notTable n hin hnot

theorem Inside.tableAt_foreign (h : Inside bs S pml4 s s') (hsep : Separate bs S pml4 s) {i : Fin 512}
    (hi : ¬S i) (hw : i ≠ 511) {p : List (Fin 512)} (hp : p.length ≤ 2) :
    tableAt s'.mem pml4 (i :: p) = tableAt s.mem pml4 (i :: p) := by
  induction p using List.reverseRecOn with
  | nil => simp only [tableAt, Tables.descend, h.root i hi]
  | append_singleton p j ih =>
    simp only [List.length_append, List.length_singleton] at hp
    rw [← List.cons_append, tableAt_concat, tableAt_concat, ih (by omega)]
    refine Option.bind_congr fun n hn => ?_
    have hforeign : Foreign S s.mem pml4 n := ⟨i, p, hi, hw, by omega, hn⟩
    rw [h.row hsep hforeign]

/-- Addresses of the firmware's slots translate as before. -/
theorem Inside.foreign (h : Inside bs S pml4 s s') (hsep : Separate bs S pml4 s) :
    Separate bs S pml4 s' ∧ ∀ w, ¬S (index w 39) → index w 39 ≠ 511 →
      walk s'.mem pml4 w = walk s.mem pml4 w := by
  refine ⟨fun n hn => ?_, fun w hw hslot => ?_⟩
  · obtain ⟨i, p, hi, hslot, hp, hn⟩ := hn
    rw [h.tableAt_foreign hsep hi hslot hp] at hn
    obtain ⟨hin, hnot⟩ := hsep n ⟨i, p, hi, hslot, hp, hn⟩
    exact ⟨h.inUse n hin, h.notTable n hin hnot⟩
  · refine walk_congr_on (S := fun i => ¬S i ∧ i ≠ 511) ⟨hw, hslot⟩ fun q j rest hq hpath => ?_
    cases q with
    | nil =>
      have hj : ¬S j := (hq.head j rfl).1
      exact congrArg some (h.root j hj)
    | cons i q =>
      obtain ⟨hi, hi'⟩ : ¬S i ∧ i ≠ 511 := hq.head i rfl
      have hlen := hq.length
      simp only [List.length_cons] at hlen
      have hlen' : q.length ≤ 2 := by omega
      simp only [entries, Tables.entryAt]
      rw [show Tables.descend link (tables s'.mem) (frameOf pml4) (i :: q) = _ from
        h.tableAt_foreign hsep hi hi' hlen']
      refine Option.map_congr fun n hn => ?_
      have hforeign : Foreign S s.mem pml4 n := ⟨i, q, hi, hi', hlen', hn⟩
      rw [h.row hsep hforeign]

/-! ## On the way to the leaf entry -/

/-- The entry at the end of a path links to a table and is writable. -/
def LinkedWritable (m : Mem) (pml4 : Nat) (p : List (Fin 512)) (i : Fin 512) : Prop :=
  ∃ e, entries m pml4 p i = some e ∧ link e ≠ none ∧ readWrite e = true

/-- From `s` to `s'` the call has made sure of the tables on path `p`, which ends at `f`. -/
structure AtTable (bs : BootServices F) (S : Fin 512 → Prop) (pml4 : Nat) (s s' : Loader F)
    (p : List (Fin 512)) (f : Nat) : Prop where
  grew : Grew bs S pml4 s s'
  table : tableAt s'.mem pml4 p = some f
  writable : ∀ q j, q ++ [j] <+: p → LinkedWritable s'.mem pml4 q j
  others : ∀ q, (slotPaths S).mem q → ¬q <+: p → tableAt s'.mem pml4 q = tableAt s.mem pml4 q

theorem AtTable.start (h : Tabled bs S pml4 s) : AtTable bs S pml4 s s [] (frameOf pml4) where
  grew := .refl h
  table := rfl
  writable q j hq := by simp at hq
  others _ _ _ := rfl

/-- A further growth keeps links writable. -/
theorem Grew.linkedWritable (h : Grew bs S pml4 s s') {p : List (Fin 512)} {i : Fin 512}
    (hp : (slotPaths S).mem (p ++ [i])) (hl : LinkedWritable s.mem pml4 p i) :
    LinkedWritable s'.mem pml4 p i := by
  obtain ⟨e, he, hlink, hw⟩ := hl
  obtain ⟨n, hn, rfl⟩ := Option.map_eq_some_iff.mp he
  have hn' := h.keep p n ((slotPaths S).init_mem p i hp) hn
  refine ⟨_, entries_of_tableAt hn' i, ?_, h.writable p i n hp hn hlink hw⟩
  obtain ⟨k, hk⟩ := Option.ne_none_iff_exists'.mp hlink
  have hnext : tableAt s.mem pml4 (p ++ [i]) = some k := by
    rw [tableAt_concat, show tableAt s.mem pml4 p = some n from hn, Option.bind_some, hk]
  have hnext' := h.keep _ k hp hnext
  rw [tableAt_concat, hn', Option.bind_some] at hnext'
  rw [hnext']
  exact Option.some_ne_none k

/-- A prefix of a path in the set is in the set. -/
theorem slotPaths_prefix {p q : List (Fin 512)} (hp : (slotPaths S).mem p) (h : q <+: p) :
    (slotPaths S).mem q := by
  obtain ⟨r, rfl⟩ := h
  induction r using List.reverseRecOn with
  | nil => simpa using hp
  | append_singleton r j ih =>
    rw [← List.append_assoc] at hp
    exact ih ((slotPaths S).init_mem _ j hp)

/-- One table further down. -/
theorem AtTable.next {p : List (Fin 512)} {i : Fin 512} {f a : Nat} (h : AtTable bs S pml4 s s' p f)
    (hp : (slotPaths S).mem (p ++ [i])) (hlarge : NotLargeAt s.mem pml4 p i)
    (hret : (nextTable bs (4096 * f) i).Returns s' a s'') :
    ∃ f', AtTable bs S pml4 s s'' (p ++ [i]) f' ∧ a = 4096 * f' := by
  have hlarge' := h.grew.notLarge p i hp hlarge
  obtain ⟨hgrew, f', hnext, ha⟩ := nextTable_spec h.grew.tabled hp hlarge' h.table hret
  refine ⟨f', ⟨h.grew.trans hgrew, hnext.table, fun q j hq => ?_, fun q hq hne => ?_⟩, ha⟩
  · rcases List.prefix_concat_iff.mp hq with hq | hq
    · obtain ⟨rfl, hij⟩ := List.append_inj' hq rfl
      obtain rfl : j = i := by simpa using hij
      refine ⟨_, entries_of_tableAt hnext.parent j, ?_, hnext.writable⟩
      have htable := hnext.table
      rw [tableAt_concat, hnext.parent, Option.bind_some] at htable
      rw [htable]
      exact Option.some_ne_none f'
    · have hmem := slotPaths_prefix ((slotPaths S).init_mem p i hp) hq
      exact hgrew.linkedWritable hmem (h.writable q j hq)
  · have hne' : q ≠ p ++ [i] := fun hc => hne (hc ▸ List.prefix_rfl)
    have hnp : ¬q <+: p := fun hc => hne (hc.trans (List.prefix_append p [i]))
    exact (hnext.others q hq hne').trans (h.others q hq hnp)

/-! ## The leaf entry -/

/-- The number of address bits a page spans. -/
def PageSize.shift : PageSize → Nat
  | .size4K => 12
  | .size2M => 21
  | .size1G => 30

/-- The leaf entry a call writes. -/
def PageSize.entry (size : PageSize) (paddr : Nat) : Nat :=
  if size = .size4K then leafEntry paddr else largeEntry paddr

/-- What a caller owes: aligned addresses of its slots, no page inside a larger one, and no
large page over tables. -/
structure Request (S : Fin 512 → Prop) (m : Mem) (pml4 v paddr : Nat) (size : PageSize) : Prop where
  canonical : canonical v = true
  slot : S (index v 39)
  aligned : v % 2 ^ size.shift = 0
  frame : paddr % 2 ^ size.shift = 0
  lt : paddr < 2 ^ 52
  outsideLarge : ∀ p i, LeafSlot v size.shift p i → ∀ q j, q ++ [j] <+: p → NotLargeAt m pml4 q j
  noTables : size ≠ .size4K → ∀ p i, LeafSlot v size.shift p i →
    ∀ e, entries m pml4 p i = some e → link e = none

/-- The page of `v` is mapped to `paddr` at its size; its entries are present and writable at
every level. -/
structure MapsPage (m : Mem) (pml4 v paddr : Nat) (size : PageSize) : Prop where
  walk : ∀ w, w / 2 ^ size.shift = v / 2 ^ size.shift → ∃ e,
    walk m pml4 w = some (e, size.shift) ∧ leafAddr (e, size.shift) w = paddr + w % 2 ^ size.shift
  writable : ∀ p i, LeafSlot v size.shift p i → ∀ q j, q ++ [j] <+: p ++ [i] → ∃ e,
    entries m pml4 q j = some e ∧ present e = true ∧ readWrite e = true

theorem PageSize.leafSlot_eq {v : Nat} {size : PageSize} {p q : List (Fin 512)} {i j : Fin 512}
    (h : LeafSlot v size.shift p i) (h' : LeafSlot v size.shift q j) : q = p ∧ j = i := by
  generalize size.shift = k at h h'
  cases h <;> cases h' <;> exact ⟨rfl, rfl⟩

/-- The entry a call writes is present and writable, has its size, and gives the frame. -/
theorem PageSize.entry_spec {paddr : Nat} (size : PageSize) (hp : paddr % 2 ^ size.shift = 0)
    (hlt : paddr < 2 ^ 52) :
    present (size.entry paddr) = true ∧ readWrite (size.entry paddr) = true ∧
      size.entry paddr < 2 ^ 52 ∧
      (size.shift = 12 ∨ pageSize (size.entry paddr) = true) ∧
      ∀ w, leafAddr (size.entry paddr, size.shift) w = paddr + w % 2 ^ size.shift := by
  -- the frame and the flags are disjoint bits
  have hsplit : ∀ k flags : Nat, paddr % 2 ^ k = 0 → flags < 2 ^ k → paddr ||| flags = paddr + flags :=
    fun k flags h1 h2 => lor_eq_add (i := k) h1 h2
  cases size with
  | size4K =>
    have he : PageSize.entry .size4K paddr = paddr + 3 := by
      show paddr ||| 1 ||| 2 = _
      rw [Nat.or_assoc]
      exact hsplit 12 3 hp (by decide)
    simp only [he, PageSize.shift, present, readWrite, leafAddr, decide_eq_true_eq] at hp ⊢
    refine ⟨by omega, by omega, by omega, .inl trivial, fun w => by omega⟩
  | size2M =>
    have he : PageSize.entry .size2M paddr = paddr + 131 := by
      show paddr ||| 128 ||| 2 ||| 1 = _
      rw [Nat.or_assoc, Nat.or_assoc]
      exact hsplit 21 131 hp (by decide)
    simp only [he, PageSize.shift, present, readWrite, pageSize, leafAddr, decide_eq_true_eq] at hp ⊢
    refine ⟨by omega, by omega, by omega, .inr (by omega), fun w => by omega⟩
  | size1G =>
    have he : PageSize.entry .size1G paddr = paddr + 131 := by
      show paddr ||| 128 ||| 2 ||| 1 = _
      rw [Nat.or_assoc, Nat.or_assoc]
      exact hsplit 30 131 hp (by decide)
    simp only [he, PageSize.shift, present, readWrite, pageSize, leafAddr, decide_eq_true_eq] at hp ⊢
    refine ⟨by omega, by omega, by omega, .inr (by omega), fun w => by omega⟩

/-- What a call leaves behind. -/
structure CallSpec (bs : BootServices F) (S : Fin 512 → Prop) (pml4 v : Nat) (size : PageSize)
    (s s' : Loader F) : Prop where
  tabled : Tabled bs S pml4 s'
  inside : Inside bs S pml4 s s'
  others : ∀ w, S (index w 39) → w / 2 ^ size.shift ≠ v / 2 ^ size.shift →
    walk s'.mem pml4 w = walk s.mem pml4 w

/-- The store of the leaf entry, once its table is there. -/
theorem AtTable.write {v paddr f : Nat} {size : PageSize} {p : List (Fin 512)} {i : Fin 512}
    (h : AtTable bs S pml4 s s' p f) (hreq : Request S s.mem pml4 v paddr size)
    (hslot : LeafSlot v size.shift p i) (t : Loader F)
    (ht : t = { s' with mem := s'.mem.store64 (4096 * f + 8 * i) (size.entry paddr) }) :
    CallSpec bs S pml4 v size s t ∧ MapsPage t.mem pml4 v paddr size := by
  obtain ⟨hpres, hwrite, hlt, hsize, haddr⟩ := size.entry_spec hreq.frame hreq.lt
  have hp := hslot.mem hreq.slot
  have htab := h.grew.tabled
  have hset : tables t.mem = (tables s'.mem).set f i (size.entry paddr) := by
    rw [ht]
    exact tables_store64 _ _ _ (by omega)
  -- a large page replaces no link
  have hold : size.shift = 12 ∨ link (tables s'.mem f i) = none := by
    by_cases h4 : size = .size4K
    · exact .inl (by rw [h4]; rfl)
    refine .inr ?_
    by_contra hl
    obtain ⟨k, hk⟩ := Option.ne_none_iff_exists'.mp hl
    have hmem : (slotPaths S).mem (p ++ [i]) := by
      cases size with
      | size4K => exact absurd rfl h4
      | size2M =>
        obtain ⟨rfl, rfl⟩ := @PageSize.leafSlot_eq v .size2M _ _ _ _ .size2M hslot
        simp [slotPaths, hreq.slot]
      | size1G =>
        obtain ⟨rfl, rfl⟩ := @PageSize.leafSlot_eq v .size1G _ _ _ _ .size1G hslot
        simp [slotPaths, hreq.slot]
    have hlen : ¬p ++ [i] <+: p := fun hc => by
      have := hc.length_le
      simp only [List.length_append, List.length_singleton] at this
      omega
    have htable : tableAt s'.mem pml4 (p ++ [i]) = some k := by
      rw [tableAt_concat, h.table, Option.bind_some, hk]
    rw [h.others _ hmem hlen, tableAt_concat, Option.bind_eq_some_iff] at htable
    obtain ⟨n, hn, hnk⟩ := htable
    have hnone := hreq.noTables h4 p i hslot _ (entries_of_tableAt hn i)
    rw [hnk] at hnone
    cases hnone
  have hnew : size.shift = 12 ∨ link (size.entry paddr) = none := by
    refine hsize.imp id fun hs => ?_
    unfold link
    rw [if_neg (by simp [hs])]
  obtain ⟨htree, hdesc, hent⟩ :=
    entries_set_leafSlot htab.tree hreq.slot hslot h.table hold hnew hset
  obtain ⟨hself, hothers⟩ := walk_set_leafSlot htab.tree hreq.slot hreq.canonical hslot h.table hold
    hpres hsize hset
  have hback : ∀ k, IsTableIn S t.mem pml4 k → IsTableIn S s'.mem pml4 k := by
    rintro k ⟨q, hq, hk⟩
    exact ⟨q, hq, by rwa [hdesc q hq] at hk⟩
  have hfw : t.firmware = s'.firmware := by rw [ht]
  have hrow : ∀ n j, n ≠ f → tables t.mem n j = tables s'.mem n j := fun n j hn => by
    rw [hset, Tables.set_apply_of_ne (.inl hn)]
  have hf : IsTableIn S t.mem pml4 f := ⟨p, hp, by rw [hdesc p hp, h.table]⟩
  have hroot : f = frameOf pml4 → False := by
    rintro rfl
    have hnil := htab.tree [] p _ (slotPaths S).nil_mem hp rfl h.table
    rw [← hnil] at hslot
    generalize size.shift = k at hslot
    cases hslot
  refine ⟨⟨⟨htree, fun k hk => ?_, htab.small_set hback hset hlt⟩, ⟨fun n hn => ?_,
    fun n hn hnt ht' => h.grew.notTable n hn hnt (hback n ht'), fun x hx => ?_, fun j hj => ?_⟩,
    fun w hw hne => ?_⟩, ⟨fun w hw => ⟨_, hself w hw, haddr w⟩, fun q j hqj r k hrk => ?_⟩⟩
  · rw [hfw]
    exact htab.inUse k (hback k hk)
  · rw [hfw]
    exact h.grew.inUse n hn
  · have hxf : x / 4096 ≠ f := fun hc => hx (hc ▸ hf)
    have hbyte : t.mem x = s'.mem x :=
      byte_eq_of_row_eq (n := x / 4096) (funext fun j => hrow _ j hxf) rfl
    have hx' : ¬IsTableIn S s'.mem pml4 (x / 4096) := by
      rintro ⟨q, hq, hk⟩
      exact hx ⟨q, hq, by rw [hdesc q hq, hk]⟩
    rw [hbyte, h.grew.bytes x hx']
  · rw [hrow _ j fun hc => hroot hc.symm, h.grew.root j hj]
  · exact (hothers w hw hne).trans (h.grew.walk w hw)
  · obtain ⟨rfl, rfl⟩ := PageSize.leafSlot_eq hslot hqj
    rcases List.prefix_concat_iff.mp hrk with hrk | hrk
    · obtain ⟨rfl, hkj⟩ := List.append_inj' hrk rfl
      obtain rfl : k = j := by simpa using hkj
      exact ⟨_, by rw [hent r k hp, if_pos ⟨rfl, rfl⟩], hpres, hwrite⟩
    · -- the entries above were made writable on the way
      have hmem := slotPaths_prefix hp hrk
      obtain ⟨e, he, hl, hw⟩ := h.writable r k hrk
      have hne : ¬(r = q ∧ k = j) := by
        rintro ⟨rfl, -⟩
        have := hrk.length_le
        simp only [List.length_append, List.length_singleton] at this
        omega
      refine ⟨e, ?_, ?_, hw⟩
      · rw [hent r k ((slotPaths S).init_mem r k hmem), if_neg hne]
        exact he
      · obtain ⟨n, hn⟩ := Option.ne_none_iff_exists'.mp hl
        exact (link_eq_some.mp hn).1

/-! ## Calls -/

/-- A failed `AllocatePages` leaves the frames in use in use. -/
def KeepsOnFailure (bs : BootServices F) : Prop :=
  ∀ st pages status st', bs.allocatePages st pages = (.error status, st') →
    ∀ f, bs.inUse st f → bs.inUse st' f

/-- A call that stops has made sure of some tables and changed no walk. -/
theorem AtTable.stop {p : List (Fin 512)} {i : Fin 512} {f e : Nat} (hfail : KeepsOnFailure bs)
    (h : AtTable bs S pml4 s s' p f) (hs : (nextTable bs (4096 * f) i).Stops s' e s'') :
    Grew bs S pml4 s s'' := by
  obtain ⟨hmem, hcall⟩ := nextTable_stops hs
  have hin : ∀ n, bs.inUse s'.firmware n → bs.inUse s''.firmware n := hfail _ _ _ _ hcall
  obtain ⟨htab, hkeep, hinUse, hnot, hbytes, hroot, hwalk, hlarge, hwrite⟩ := h.grew
  obtain ⟨htree, huse, hsmall⟩ := htab
  refine ⟨⟨by rwa [hmem], fun n hn => ?_, by rwa [hmem]⟩, by rwa [hmem], fun n hn => hin n (hinUse n hn),
    by rwa [hmem], by rwa [hmem], by rwa [hmem], by rwa [hmem], by rwa [hmem], by rwa [hmem]⟩
  rw [hmem] at hn
  exact hin n (huse n hn)

theorem pml4_eq (hroot : FrameAddr pml4) : pml4 = 4096 * frameOf pml4 := by
  have h1 := hroot.aligned
  have h2 := hroot.lt
  unfold frameOf
  omega

section Calls

variable {v paddr : Nat} {size : PageSize}

theorem Request.notLarge_pml4 (hreq : Request S s.mem pml4 v paddr size) :
    NotLargeAt s.mem pml4 [] (index v 39) := by
  cases size with
  | size4K => exact hreq.outsideLarge _ _ .small [] _ (by simp)
  | size2M => exact hreq.outsideLarge _ _ .size2M [] _ (by simp)
  | size1G => exact hreq.outsideLarge _ _ .size1G [] _ (by simp)

theorem Request.notLarge_pdpt (hreq : Request S s.mem pml4 v paddr size) (h1G : size ≠ .size1G) :
    NotLargeAt s.mem pml4 [index v 39] (index v 30) := by
  cases size with
  | size4K => exact hreq.outsideLarge _ _ .small [index v 39] _ (by simp)
  | size2M => exact hreq.outsideLarge _ _ .size2M [index v 39] _ (by simp)
  | size1G => exact absurd rfl h1G

/-- `add_page_mapping`, when it returns. -/
theorem addPageMapping_returns (h : Tabled bs S pml4 s) (hroot : FrameAddr pml4)
    (hreq : Request S s.mem pml4 v paddr size)
    (hret : (addPageMapping bs pml4 v paddr size).Returns s () s') :
    CallSpec bs S pml4 v size s s' ∧ MapsPage s'.mem pml4 v paddr size := by
  unfold addPageMapping at hret
  obtain ⟨pdpt, s₁, h₁, hret⟩ := Outcome.returns_bind_iff.mp hret
  rw [pml4_eq hroot] at h₁
  have hmem₄ : (slotPaths S).mem ([] ++ [index v 39]) := (UpperOf.pml4.mem hreq.slot).2
  obtain ⟨f₁, at₁, rfl⟩ := (AtTable.start h).next hmem₄ hreq.notLarge_pml4 h₁
  by_cases h1G : size = .size1G
  · subst h1G
    rw [if_pos rfl] at hret
    obtain ⟨-, rfl⟩ := (returns_writePhys _ _).det hret
    exact at₁.write hreq .size1G _ rfl
  rw [if_neg h1G] at hret
  obtain ⟨pd, s₂, h₂, hret⟩ := Outcome.returns_bind_iff.mp hret
  have hmem₃ : (slotPaths S).mem ([index v 39] ++ [index v 30]) := (UpperOf.pdpt.mem hreq.slot).2
  obtain ⟨f₂, at₂, rfl⟩ := at₁.next hmem₃ (hreq.notLarge_pdpt h1G) h₂
  by_cases h2M : size = .size2M
  · subst h2M
    rw [if_pos rfl] at hret
    obtain ⟨-, rfl⟩ := (returns_writePhys _ _).det hret
    exact at₂.write hreq .size2M _ rfl
  rw [if_neg h2M] at hret
  obtain ⟨pt, s₃, h₃, hret⟩ := Outcome.returns_bind_iff.mp hret
  have hmem₂ : (slotPaths S).mem ([index v 39, index v 30] ++ [index v 21]) :=
    (UpperOf.pd.mem hreq.slot).2
  have h4K : size = .size4K := by
    cases size with
    | size4K => rfl
    | size2M => exact absurd rfl h2M
    | size1G => exact absurd rfl h1G
  subst h4K
  have hlarge₂ := hreq.outsideLarge _ _ .small [index v 39, index v 30] (index v 21) (by simp)
  obtain ⟨f₃, at₃, rfl⟩ := at₂.next hmem₂ hlarge₂ h₃
  obtain ⟨-, rfl⟩ := (returns_writePhys _ _).det hret
  exact at₃.write hreq .small _ rfl

/-- `add_page_mapping`, when `AllocatePages` fails. -/
theorem addPageMapping_stops (hfail : KeepsOnFailure bs) (h : Tabled bs S pml4 s)
    (hroot : FrameAddr pml4) (hreq : Request S s.mem pml4 v paddr size) {e : Nat}
    (hs : (addPageMapping bs pml4 v paddr size).Stops s e s') : Grew bs S pml4 s s' := by
  unfold addPageMapping at hs
  have hmem₄ : (slotPaths S).mem ([] ++ [index v 39]) := (UpperOf.pml4.mem hreq.slot).2
  have hpml4 := pml4_eq hroot
  rcases Outcome.stops_bind_iff.mp hs with hs | ⟨pdpt, s₁, h₁, hs⟩
  · rw [hpml4] at hs
    exact (AtTable.start h).stop hfail hs
  rw [hpml4] at h₁
  obtain ⟨f₁, at₁, rfl⟩ := (AtTable.start h).next hmem₄ hreq.notLarge_pml4 h₁
  by_cases h1G : size = .size1G
  · rw [if_pos h1G] at hs
    exact absurd hs (neverStops_writePhys _ _ _ _ _)
  rw [if_neg h1G] at hs
  have hmem₃ : (slotPaths S).mem ([index v 39] ++ [index v 30]) := (UpperOf.pdpt.mem hreq.slot).2
  rcases Outcome.stops_bind_iff.mp hs with hs | ⟨pd, s₂, h₂, hs⟩
  · exact at₁.stop hfail hs
  obtain ⟨f₂, at₂, rfl⟩ := at₁.next hmem₃ (hreq.notLarge_pdpt h1G) h₂
  split_ifs at hs
  · exact absurd hs (neverStops_writePhys _ _ _ _ _)
  rcases Outcome.stops_bind_iff.mp hs with hs | ⟨pt, s₃, h₃, hs⟩
  · exact at₂.stop hfail hs
  · exact absurd hs (neverStops_writePhys _ _ _ _ _)

end Calls

/-! ## Runs -/

/-- The loader's slots are empty, and the firmware's tables are in use; the PML4 is a frame of
its own. -/
structure EmptySlots (bs : BootServices F) (S : Fin 512 → Prop) (pml4 : Nat) (s : Loader F) :
    Prop where
  absent : ∀ i, S i → present (tables s.mem (frameOf pml4) i) = false
  rootInUse : bs.inUse s.firmware (frameOf pml4)
  foreignInUse : ∀ n, Foreign S s.mem pml4 n → bs.inUse s.firmware n
  foreignNotRoot : ∀ n, Foreign S s.mem pml4 n → n ≠ frameOf pml4

/-- Sequences of valid calls, each of which may return or stop with an error. -/
inductive MappingRun (bs : BootServices F) (S : Fin 512 → Prop) (pml4 : Nat) (s₀ : Loader F) :
    Loader F → Prop where
  | start : MappingRun bs S pml4 s₀ s₀
  | success {s s' : Loader F} {v paddr : Nat} {size : PageSize} : MappingRun bs S pml4 s₀ s →
      Request S s.mem pml4 v paddr size →
      (addPageMapping bs pml4 v paddr size).Returns s () s' → MappingRun bs S pml4 s₀ s'
  | error {s s' : Loader F} {v paddr status : Nat} {size : PageSize} : MappingRun bs S pml4 s₀ s →
      Request S s.mem pml4 v paddr size →
      (addPageMapping bs pml4 v paddr size).Stops s status s' → MappingRun bs S pml4 s₀ s'

/-- Behind empty slots there is only the PML4. -/
theorem EmptySlots.tableAt (h : EmptySlots bs S pml4 s) {p : List (Fin 512)} {n : Nat}
    (hp : (slotPaths S).mem p) (hn : tableAt s.mem pml4 p = some n) : p = [] := by
  cases p with
  | nil => rfl
  | cons i p =>
    have hi : S i := hp.2 i rfl
    rw [Paging.tableAt, Tables.descend, link_of_not_present (h.absent i hi), Option.bind_none] at hn
    cases hn

theorem EmptySlots.isTable (h : EmptySlots bs S pml4 s) {n : Nat} (hn : IsTableIn S s.mem pml4 n) :
    n = frameOf pml4 := by
  obtain ⟨p, hp, hn⟩ := hn
  obtain rfl := h.tableAt hp hn
  exact (Option.some.inj hn).symm

theorem EmptySlots.inv (h : EmptySlots bs S pml4 s) :
    Tabled bs S pml4 s ∧ Separate bs S pml4 s := by
  refine ⟨⟨fun p q n hp hq hn hn' => ?_, fun n hn => ?_, fun n i hn hi hpres => ?_⟩, fun n hn => ?_⟩
  · rw [h.tableAt hp hn, h.tableAt hq hn']
  · rw [h.isTable hn]
    exact h.rootInUse
  · obtain rfl := h.isTable hn
    rw [h.absent i (hi rfl)] at hpres
    cases hpres
  · exact ⟨h.foreignInUse n hn, fun ht => h.foreignNotRoot n hn (h.isTable ht)⟩

/-- The invariant of a run. -/
theorem MappingRun.inv {s₀ : Loader F} (hroot : FrameAddr pml4) (hfail : KeepsOnFailure bs)
    (h₀ : EmptySlots bs S pml4 s₀) (hrun : MappingRun bs S pml4 s₀ s) :
    Tabled bs S pml4 s ∧ Separate bs S pml4 s := by
  induction hrun with
  | start => exact h₀.inv
  | success _ hreq hret ih =>
    obtain ⟨hspec, -⟩ := addPageMapping_returns ih.1 hroot hreq hret
    exact ⟨hspec.tabled, (hspec.inside.foreign ih.2).1⟩
  | error _ hreq hs ih =>
    have hgrew := addPageMapping_stops hfail ih.1 hroot hreq hs
    exact ⟨hgrew.tabled, (hgrew.inside.foreign ih.2).1⟩

/-- **`add_page_mapping`, after any sequence of calls.** In every state reached from empty
slots by calls of which any may have failed: a call that returns maps its page at the
requested size, present and writable, and every other address outside slot 511 translates
as before; a call that stops with an error changes the translation of no address outside
slot 511. -/
theorem addPageMapping_run {s₀ : Loader F} (hroot : FrameAddr pml4) (hfail : KeepsOnFailure bs)
    (h₀ : EmptySlots bs S pml4 s₀) (hrun : MappingRun bs S pml4 s₀ s) {v paddr : Nat}
    {size : PageSize} (hreq : Request S s.mem pml4 v paddr size) :
    (∀ s', (addPageMapping bs pml4 v paddr size).Returns s () s' →
      MapsPage s'.mem pml4 v paddr size ∧
      ∀ w, index w 39 ≠ 511 → w / 2 ^ size.shift ≠ v / 2 ^ size.shift →
        walk s'.mem pml4 w = walk s.mem pml4 w) ∧
    ∀ status s', (addPageMapping bs pml4 v paddr size).Stops s status s' →
      ∀ w, index w 39 ≠ 511 → walk s'.mem pml4 w = walk s.mem pml4 w := by
  obtain ⟨htab, hsep⟩ := hrun.inv hroot hfail h₀
  refine ⟨fun s' hret => ?_, fun status s' hs w hw => ?_⟩
  · obtain ⟨hspec, hmaps⟩ := addPageMapping_returns htab hroot hreq hret
    refine ⟨hmaps, fun w hw hne => ?_⟩
    by_cases hS : S (index w 39)
    · exact hspec.others w hS hne
    · exact (hspec.inside.foreign hsep).2 w hS hw
  · have hgrew := addPageMapping_stops hfail htab hroot hreq hs
    by_cases hS : S (index w 39)
    · exact hgrew.walk w hS
    · exact (hgrew.inside.foreign hsep).2 w hS hw

/-- No tables but a PML4 of zeros in frame 1. -/
def noTables : Loader Nat := ⟨fun _ => 0, 2⟩

theorem tables_noTables (n : Nat) (i : Fin 512) : tables noTables.mem n i = 0 :=
  (Mem.loadLE_of_digits (v := 0) fun j _ => by rw [Nat.zero_div]; rfl).trans (by decide)

theorem tableAt_noTables {i : Fin 512} {p : List (Fin 512)} :
    tableAt noTables.mem 0x1000 (i :: p) = none := by
  rw [tableAt, Tables.descend, tables_noTables, link_zero, Option.bind_none]

theorem completes_addPageMapping_oneGiB {room : F → Nat} (h : HasRoom bs room) (pml4 v paddr : Nat) :
    Completes room (1 + 0) (addPageMapping bs pml4 v paddr .size1G) := by
  unfold addPageMapping
  exact (completes_nextTable h _ _).bind fun pdpt =>
    Completes.writePhys (pdpt + 8 * index v 30) (largeEntry paddr)

/-- A page of 1 GiB is mapped in an empty address space. -/
theorem addPageMapping_run_oneGiB :
    ∃ s', (addPageMapping bumpAllocator 0x1000 0x40000000 0x80000000 .size1G).Returns noTables () s' ∧
      (∃ e, walk s'.mem 0x1000 0x40000123 = some (e, 30)) ∧
      walk s'.mem 0x1000 0x123 = walk noTables.mem 0x1000 0x123 := by
  have hroot : FrameAddr 0x1000 := ⟨by decide, by decide⟩
  have hfail : KeepsOnFailure bumpAllocator := by
    intro st pages status st' h f hf
    simp only [bumpAllocator] at h
    split_ifs at h
    · cases h
    · obtain ⟨-, rfl⟩ := Prod.mk.inj h
      exact hf
  have hempty : EmptySlots bumpAllocator (· ≠ 511) 0x1000 noTables := by
    have hnone : ∀ n, ¬Foreign (· ≠ 511) noTables.mem 0x1000 n := by
      rintro n ⟨i, p, -, -, -, hn⟩
      rw [tableAt_noTables] at hn
      cases hn
    refine ⟨fun i _ => ?_, ?_, fun n hn => absurd hn (hnone n), fun n hn => absurd hn (hnone n)⟩
    · rw [tables_noTables]
      rfl
    · show frameOf 0x1000 < 2
      decide
  have hreq : Request (· ≠ 511) noTables.mem 0x1000 0x40000000 0x80000000 .size1G := by
    have hzero : ∀ p i e, entries noTables.mem 0x1000 p i = some e → e = 0 := by
      intro p i e he
      obtain ⟨n, -, rfl⟩ := Option.map_eq_some_iff.mp he
      exact tables_noTables n i
    refine ⟨by decide, by decide, by decide, by decide, by decide, fun p i _ q j _ e he hpres => ?_,
      fun _ p i _ e he => ?_⟩
    · rw [hzero q j e he] at hpres
      cases hpres
    · rw [hzero p i e he]
      rfl
  obtain ⟨_, s', hret, -⟩ := completes_addPageMapping_oneGiB hasRoom_bumpAllocator
    0x1000 0x40000000 0x80000000 noTables (by decide)
  obtain ⟨hreturns, -⟩ := addPageMapping_run hroot hfail hempty .start hreq
  obtain ⟨hmaps, hothers⟩ := hreturns s' hret
  obtain ⟨e, hwalk, -⟩ := hmaps.walk 0x40000123 (by decide)
  exact ⟨s', hret, ⟨e, hwalk⟩, hothers 0x123 (by decide) (by decide)⟩

end KoalemOS.Boot
