import KoalemOS.Paging.SplitFrames

/-!
# Unmapping pages one after the other (`unmap_page_fix_size` of `src/kernel/memory.c`)

The first page that is unmapped in a large page costs the tables for its small pages; the other pages of
the block cost none then.

- `splitAll`, `tablesFor`: the large pages that are left, and the tables that the others have cost,
  read off the page tables at the start
- `WalksKept`: what all walks are after some pages have been unmapped
- `WalksKept.split`, `WalksKept.small`: one more page
-/

namespace KoalemOS.Paging

open KoalemOS.Library

/-! ## The tables that the pages cost -/

/-- The size of the large page that maps an address, in address bits. -/
def largeShift (m : Mem) (cr3 v : Nat) : Option Nat :=
  (walk m cr3 v).bind fun leaf => if leaf.2 = 12 then none else some leaf.2

/-- The large pages without the one that `v` lies in. -/
def splitBlock (L : Nat → Option Nat) (v : Nat) : Nat → Option Nat :=
  match L v with
  | none => L
  | some shift => fun w => if w / 2 ^ shift = v / 2 ^ shift then none else L w

/-- The large pages that are left after the pages `vs`. -/
def splitAll (L : Nat → Option Nat) (vs : List Nat) : Nat → Option Nat := vs.foldl splitBlock L

/-- The number of tables that the pages `vs` cost. -/
def tablesFor (L : Nat → Option Nat) : List Nat → Nat
  | [] => 0
  | v :: vs => (L v).elim 0 splitTables + tablesFor (splitBlock L v) vs

section Counting

variable {L : Nat → Option Nat} {v w shift shift' : Nat} {vs ws : List Nat}

theorem splitBlock_none (h : L v = none) : splitBlock L v = L := by
  simp only [splitBlock, h]

theorem splitBlock_some (h : L v = some shift) :
    splitBlock L v w = if w / 2 ^ shift = v / 2 ^ shift then none else L w := by
  simp only [splitBlock, h]

theorem splitAll_append (L : Nat → Option Nat) (vs ws : List Nat) :
    splitAll L (vs ++ ws) = splitAll (splitAll L vs) ws :=
  List.foldl_append

theorem splitAll_concat (L : Nat → Option Nat) (vs : List Nat) (v : Nat) :
    splitAll L (vs ++ [v]) = splitBlock (splitAll L vs) v := splitAll_append L vs [v]

theorem tablesFor_append (L : Nat → Option Nat) (vs ws : List Nat) :
    tablesFor L (vs ++ ws) = tablesFor L vs + tablesFor (splitAll L vs) ws := by
  induction vs generalizing L with
  | nil => exact (Nat.zero_add _).symm
  | cons v vs ih =>
    rw [List.cons_append, tablesFor, ih, tablesFor, Nat.add_assoc]
    rfl

theorem tablesFor_concat (L : Nat → Option Nat) (vs : List Nat) (v : Nat) :
    tablesFor L (vs ++ [v]) = tablesFor L vs + (splitAll L vs v).elim 0 splitTables := by
  rw [tablesFor_append]
  rfl

theorem tablesFor_mono (h : vs <+: ws) : tablesFor L vs ≤ tablesFor L ws := by
  obtain ⟨us, rfl⟩ := h
  rw [tablesFor_append]
  exact Nat.le_add_right _ _

/-- Small pages cost no tables. -/
theorem tablesFor_eq_zero (h : ∀ v ∈ vs, L v = none) : tablesFor L vs = 0 := by
  induction vs with
  | nil => rfl
  | cons v vs ih =>
    rw [tablesFor, h v List.mem_cons_self, splitBlock_none (h v List.mem_cons_self)]
    exact (Nat.zero_add _).trans (ih fun w hw => h w (List.mem_cons_of_mem _ hw))

/-- A block that is left was there before. -/
theorem splitBlock_le (h : splitBlock L v w = some shift) : L w = some shift := by
  cases hv : L v with
  | none => rwa [splitBlock_none hv] at h
  | some k =>
    rw [splitBlock_some hv] at h
    split_ifs at h
    exact h

theorem splitAll_le (h : splitAll L vs w = some shift) : L w = some shift := by
  induction vs using List.reverseRecOn with
  | nil => exact h
  | append_singleton vs v ih =>
    rw [splitAll_concat] at h
    exact ih (splitBlock_le h)

end Counting

theorem largeShift_eq_some {m : Mem} {cr3 v shift : Nat} :
    largeShift m cr3 v = some shift ↔ shift ≠ 12 ∧ ∃ e, walk m cr3 v = some (e, shift) := by
  unfold largeShift
  cases hw : walk m cr3 v with
  | none => simp
  | some leaf =>
    obtain ⟨e, k⟩ := leaf
    simp only [Option.bind_some, Option.some.injEq, Prod.mk.injEq]
    constructor
    · intro h
      split_ifs at h with hk
      obtain rfl := Option.some.inj h
      exact ⟨hk, e, rfl, rfl⟩
    · rintro ⟨hk, -, -, rfl⟩
      rw [if_neg hk]

/-! ## The walks -/

/-- The address bits of a large leaf entry are those of its block: no other bit is among them. -/
def PlainLeaf (leaf : Nat × Nat) : Prop :=
  leaf.2 = 12 ∨ leaf.1 &&& 0xFFFFFFFFF000 = leaf.1 / 2 ^ leaf.2 % 2 ^ (52 - leaf.2) * 2 ^ leaf.2

/-- From `s` to `u` the pages `vs` have been unmapped. Addresses of the large pages that are left walk as
before, and the pages of the others have page tables; a page that has not been unmapped is where it was. -/
structure WalksKept (s : Kernel) (vs : List Nat) (u : Kernel) : Prop where
  pages : ∀ v ∈ vs, UserPage v
  large : ∀ w shift, index w 39 ≠ 511 → splitAll (largeShift s.mem s.cr3) vs w = some shift →
    walk u.mem u.cr3 w = walk s.mem s.cr3 w
  small : ∀ w, index w 39 ≠ 511 → splitAll (largeShift s.mem s.cr3) vs w = none →
    walk s.mem s.cr3 w ≠ none → ∃ n, ptAt u.mem u.cr3 w = some n
  unmapped : ∀ v ∈ vs, ∀ w, w / 4096 = v / 4096 → walk u.mem u.cr3 w = none
  kept : ∀ w leaf, index w 39 ≠ 511 → walk s.mem s.cr3 w = some leaf → PlainLeaf leaf →
    (∀ v ∈ vs, w / 4096 ≠ v / 4096) → translate u.mem u.cr3 w = translate s.mem s.cr3 w
  slots : ∀ w, index w 39 ≠ 511 → (∀ v ∈ vs, index w 39 ≠ index v 39) → walk u.mem u.cr3 w = walk s.mem s.cr3 w

section Walks

variable {s u u' : Kernel} {vs : List Nat} {v e shift : Nat}

theorem WalksKept.refl (s : Kernel) : WalksKept s [] s := by
  refine ⟨nofun, fun _ _ _ _ => rfl, fun w _ hnone hw => ?_, nofun, fun _ _ _ _ _ _ => rfl, fun _ _ _ => rfl⟩
  obtain ⟨⟨e, shift⟩, hwalk⟩ := Option.ne_none_iff_exists'.mp hw
  by_cases hs : shift = 12
  · subst hs
    obtain ⟨n, hn, -⟩ := ptAt_of_walk hwalk
    exact ⟨n, hn⟩
  · have hlarge := largeShift_eq_some.mpr ⟨hs, e, hwalk⟩
    rw [splitAll, List.foldl_nil, hlarge] at hnone
    cases hnone

/-- What a walk sees of a page without an entry. -/
theorem walk_of_cleared {m : Mem} {cr3 v w n : Nat} (hn : ptAt m cr3 v = some n) (hzero : tables m n (index v 12) = 0)
    (hw : w / 4096 = v / 4096) : walk m cr3 w = none := by
  by_cases hc : canonical w = true
  · have hnw : ptAt m cr3 w = some n := by
      rw [ptAt, index_of_same_page hw (by decide), index_of_same_page hw (by decide),
        index_of_same_page hw (by decide)]
      exact hn
    rw [walk_of_ptAt hc hnw, index_of_same_page hw le_rfl, hzero, if_neg (by decide)]
  · rw [walk, if_neg hc]

/-- A small page is unmapped. -/
theorem WalksKept.small_step (h : WalksKept s vs u) (hv : UserPage v)
    (hleft : splitAll (largeShift s.mem s.cr3) vs v = none) {n : Nat} (hn : ptAt u.mem u.cr3 v = some n)
    (hedit : Edited u u' v 0 []) : WalksKept s (vs ++ [v]) u' := by
  have hsplit : splitAll (largeShift s.mem s.cr3) (vs ++ [v]) = splitAll (largeShift s.mem s.cr3) vs := by
    rw [splitAll_concat, splitBlock_none hleft]
  have hkeep : ∀ w k, index w 39 ≠ 511 → ptAt u.mem u.cr3 w = some k → ptAt u'.mem u'.cr3 w = some k :=
    fun w k hw hk => hedit.keep _ _ (UpperOf.pd.mem hw).2 hk
  have hnone : ∀ w, w / 4096 = v / 4096 → walk u'.mem u'.cr3 w = none := fun w hw => hedit.walk_self hv hw
  refine ⟨fun x hx => ?_, fun w shift hw hL => ?_, fun w hw hL hmapped => ?_, fun x hx w hwx => ?_,
    fun w leaf hw hleaf hplain hoff => ?_, fun w hw hoff => ?_⟩
  · rcases List.mem_append.mp hx with hx | hx
    · exact h.pages x hx
    · rwa [List.mem_singleton.mp hx]
  · rw [hsplit] at hL
    have hwalk := h.large w shift hw hL
    obtain ⟨hs, e, he⟩ := largeShift_eq_some.mp (splitAll_le hL)
    -- the page is no page of a large one
    have hne : w / 4096 ≠ v / 4096 := by
      intro hwv
      have hnw : ptAt u.mem u.cr3 w = some n := by
        rw [ptAt, index_of_same_page hwv (by decide), index_of_same_page hwv (by decide),
          index_of_same_page hwv (by decide)]
        exact hn
      rw [he, walk_of_ptAt (by rw [canonical_of_same_page hwv]; exact hv.canonical) hnw] at hwalk
      split_ifs at hwalk
      exact hs (congrArg Prod.snd (Option.some.inj hwalk)).symm
    rw [hedit.others w hw hne, hwalk]
  · rw [hsplit] at hL
    obtain ⟨k, hk⟩ := h.small w hw hL hmapped
    exact ⟨k, hkeep w k hw hk⟩
  · by_cases hwv : w / 4096 = v / 4096
    · exact hnone w hwv
    · rcases List.mem_append.mp hx with hx | hx
      · have hw : index w 39 ≠ 511 := by
          rw [index_of_same_page hwx (by decide)]
          exact (h.pages x hx).slot
        rw [hedit.others w hw hwv]
        exact h.unmapped x hx w hwx
      · exact absurd (List.mem_singleton.mp hx ▸ hwx) hwv
  · have hwv := hoff v (by simp)
    rw [translate, hedit.others w hw hwv]
    exact h.kept w leaf hw hleaf hplain fun x hx => hoff x (List.mem_append_left _ hx)
  · have hwv : w / 4096 ≠ v / 4096 := fun hc => hoff v (by simp) (index_of_same_page hc (by decide))
    rw [hedit.others w hw hwv]
    exact h.slots w hw fun x hx => hoff x (List.mem_append_left _ hx)

/-- The address of a page of a block, from the small entry and from the large one. -/
theorem leafAddr_split (hs : shift = 21 ∨ shift = 30) (hplain : PlainLeaf (e, shift)) (w : Nat) :
    leafAddr ((e &&& 0xFFFFFFFFF000) + w % 2 ^ shift / 4096 * 4096 + ((e &&& 0x3E) + 1), 12) w =
      leafAddr (e, shift) w := by
  have hbase := frameAddr_and e
  have hflags := (flagsOk_and e).low
  have haligned := hbase.aligned
  have hlt := hbase.lt
  rcases hplain with hc | hplain
  · simp only at hc
    omega
  have hzero : (e &&& 0xFFFFFFFFF000) % 2 ^ shift = 0 := by
    rw [hplain]
    exact Nat.mul_mod_left _ _
  rw [leafAddr_small, leafAddr, ← hplain]
  generalize e &&& 0xFFFFFFFFF000 = base at *
  generalize e &&& 0x3E = flags at *
  unfold frameOf
  rcases hs with rfl | rfl <;> norm_num only at hzero ⊢ <;> omega

/-- The first page of a large page is unmapped, and the other pages of the block get small pages. -/
theorem WalksKept.split (h : WalksKept s vs u) (hv : UserPage v)
    (hleft : splitAll (largeShift s.mem s.cr3) vs v = some shift) {p : List (Fin 512)} {i : Fin 512} {n : Nat}
    (hslot : LeafSlot v shift p i) (hs : shift ≠ 12) (hn : tableAt u.mem u.cr3 p = some n)
    (hpres : present (tables u.mem n i) = true) (hsize : pageSize (tables u.mem n i) = true)
    (ht : UnmapTakes u u' v shift (tables u.mem n i &&& 0xFFFFFFFFF000) (tables u.mem n i &&& 0x3E)) :
    WalksKept s (vs ++ [v]) u' := by
  have hs' := hslot.large hs
  obtain ⟨k, -, hedits⟩ := ht.edits
  have hsplit : ∀ w, splitAll (largeShift s.mem s.cr3) (vs ++ [v]) w =
      if w / 2 ^ shift = v / 2 ^ shift then none else splitAll (largeShift s.mem s.cr3) vs w := fun w => by
    rw [splitAll_concat, splitBlock_some hleft]
  have hkeep : ∀ w k, index w 39 ≠ 511 → ptAt u.mem u.cr3 w = some k → ptAt u'.mem u'.cr3 w = some k :=
    fun w k hw hk => hedits.keep _ _ (UpperOf.pd.mem hw).2 hk
  -- the block before the call
  have hblock : ∀ w, w / 2 ^ shift = v / 2 ^ shift → walk u.mem u.cr3 w = some (tables u.mem n i, shift) := by
    intro w hw
    have hc : canonical w = true := by
      rw [canonical_of_same_block (by rcases hs' with rfl | rfl <;> decide) hw]
      exact hv.canonical
    exact walk_of_leafSlot hc (hslot.of_same_block hw) hn hpres (.inr hsize)
  obtain ⟨n', hn', hzero⟩ := ht.entry
  refine ⟨fun x hx => ?_, fun w k hw hL => ?_, fun w hw hL hmapped => ?_, fun x hx w hwx => ?_,
    fun w leaf hw hleaf hplain hoff => ?_, fun w hw hoff => ?_⟩
  · rcases List.mem_append.mp hx with hx | hx
    · exact h.pages x hx
    · rwa [List.mem_singleton.mp hx]
  · rw [hsplit] at hL
    split_ifs at hL with hwv
    rw [ht.others w hw hwv, h.large w k hw hL]
  · rw [hsplit] at hL
    split_ifs at hL with hwv
    · by_cases hsame : w / 4096 = v / 4096
      · refine ⟨n', ?_⟩
        rw [ptAt, index_of_same_page hsame (by decide), index_of_same_page hsame (by decide),
          index_of_same_page hsame (by decide)]
        exact hn'
      · obtain ⟨k, hk, -⟩ := ptAt_of_walk (ht.mapped w hwv hsame)
        exact ⟨k, hk⟩
    · obtain ⟨k, hk⟩ := h.small w hw hL hmapped
      exact ⟨k, hkeep w k hw hk⟩
  · rcases List.mem_append.mp hx with hx | hx
    · have hw : index w 39 ≠ 511 := by
        rw [index_of_same_page hwx (by decide)]
        exact (h.pages x hx).slot
      have hnone := h.unmapped x hx w hwx
      have hwv : w / 2 ^ shift ≠ v / 2 ^ shift := by
        intro hwv
        rw [hblock w hwv] at hnone
        cases hnone
      rw [ht.others w hw hwv, hnone]
    · rw [List.mem_singleton.mp hx] at hwx
      exact walk_of_cleared hn' hzero hwx
  · have hoff' : ∀ x ∈ vs, w / 4096 ≠ x / 4096 := fun x hx => hoff x (List.mem_append_left _ hx)
    by_cases hwv : w / 2 ^ shift = v / 2 ^ shift
    · have hsame := h.kept w leaf hw hleaf hplain hoff'
      -- the leaf entry is the one at the start
      have hleaf' : leaf = (tables u.mem n i, shift) := by
        by_contra hne
        refine hne ?_
        have hL : splitAll (largeShift s.mem s.cr3) vs w = some shift := by
          cases hLw : splitAll (largeShift s.mem s.cr3) vs w with
          | none =>
            obtain ⟨k, hk⟩ := h.small w hw hLw (by rw [hleaf]; simp)
            have hc : canonical w = true := by
              rw [canonical_of_same_block (by rcases hs' with rfl | rfl <;> decide) hwv]
              exact hv.canonical
            have hwalk := hblock w hwv
            rw [walk_of_ptAt hc hk] at hwalk
            split_ifs at hwalk
            exact absurd (congrArg Prod.snd (Option.some.inj hwalk)).symm hs
          | some k =>
            have hwalk := h.large w k hw hLw
            obtain ⟨-, e, he⟩ := largeShift_eq_some.mp (splitAll_le hLw)
            rw [hblock w hwv, he] at hwalk
            have hk : shift = k := congrArg Prod.snd (Option.some.inj hwalk)
            rw [hk]
        have hwalk := h.large w shift hw hL
        rw [hblock w hwv, hleaf] at hwalk
        exact (Option.some.inj hwalk).symm
      rw [hleaf'] at hplain
      rw [← hsame, translate, translate, ht.mapped w hwv (hoff v (by simp)), hblock w hwv, Option.map_some,
        Option.map_some, leafAddr_split hs' hplain w]
    · rw [translate, ht.others w hw hwv]
      exact h.kept w leaf hw hleaf hplain hoff'
  · have hwv : w / 2 ^ shift ≠ v / 2 ^ shift := by
      intro hc
      refine hoff v (by simp) (Fin.ext ?_)
      simp only [index]
      rcases hs' with rfl | rfl <;> omega
    rw [ht.others w hw hwv]
    exact h.slots w hw fun x hx => hoff x (List.mem_append_left _ hx)

end Walks

end KoalemOS.Paging
