import KoalemOS.Paging.Tree

/-!
# Leaf entries at every level

A page of 4 KiB, 2 MiB or 1 GiB is mapped by a leaf entry in a table one, two or three
levels below the PML4 (`LeafSlot`). Editing such an entry changes the walks of the addresses
of that page and no others (`walk_set_leafSlot`).
-/

namespace KoalemOS.Paging

open KoalemOS.Library

/-! ## Walks and entries -/

/-- A walk depends only on the entries it follows. -/
theorem leafFrom_congr_on {S : Fin 512 → Prop} {E E' : List (Fin 512) → Fin 512 → Option Nat}
    {q rest : List (Fin 512)}
    (h : ∀ q' j rest', Follows S q' (j :: rest') → q ++ rest = q' ++ j :: rest' → E' q' j = E q' j)
    (hq : Follows S q rest) : leafFrom E' q rest = leafFrom E q rest := by
  induction rest generalizing q with
  | nil => rfl
  | cons j rest ih =>
    have hnext : leafFrom E' (q ++ [j]) rest = leafFrom E (q ++ [j]) rest := by
      refine ih (fun q' j' rest' hq' heq => h q' j' rest' hq' ?_) hq.next
      rw [← heq, List.append_assoc, List.singleton_append]
    simp only [leafFrom]
    rw [h q j rest hq rfl, hnext]

/-- Equal entries on the path of an address give it equal walks. -/
theorem walk_congr_on {S : Fin 512 → Prop} {m m' : Mem} {cr3 w : Nat} (hw : S (index w 39))
    (h : ∀ q j rest, Follows S q (j :: rest) → indices w = q ++ j :: rest →
      entries m' cr3 q j = entries m cr3 q j) : walk m' cr3 w = walk m cr3 w := by
  rw [walk_eq, walk_eq, leafFrom_congr_on h (follows_indices hw)]

/-! ## Leaf entries -/

/-- The table and the label of the leaf entry of a page of `2 ^ shift` bytes. -/
inductive LeafSlot (v : Nat) : Nat → List (Fin 512) → Fin 512 → Prop
  | small : LeafSlot v 12 [index v 39, index v 30, index v 21] (index v 12)
  | size2M : LeafSlot v 21 [index v 39, index v 30] (index v 21)
  | size1G : LeafSlot v 30 [index v 39] (index v 30)

section Blocks

variable {v w shift : Nat} {p : List (Fin 512)} {i : Fin 512}

/-- Addresses of one block have equal indices at and above its level. -/
theorem index_of_same_block {k : Nat} (h : w / 2 ^ shift = v / 2 ^ shift) (hk : shift ≤ k) :
    index w k = index v k := by
  have hpow : 2 ^ k = 2 ^ shift * 2 ^ (k - shift) := by
    rw [← pow_add]
    congr 1
    omega
  apply Fin.ext
  simp only [index]
  rw [hpow, ← Nat.div_div_eq_div_mul, ← Nat.div_div_eq_div_mul, h]

/-- The address passes its leaf entry. -/
theorem LeafSlot.isPrefix (h : LeafSlot v shift p i) : p ++ [i] <+: indices v := by
  cases h
  · exact List.prefix_rfl
  · exact ⟨[index v 12], rfl⟩
  · exact ⟨[index v 21, index v 12], rfl⟩

theorem LeafSlot.shift_le (h : LeafSlot v shift p i) : 12 ≤ shift ∧ shift ≤ 30 := by
  cases h <;> decide

/-- The path to the leaf entry is one to a table. -/
theorem LeafSlot.mem {S : Fin 512 → Prop} (h : LeafSlot v shift p i) (hv : S (index v 39)) :
    (slotPaths S).mem p := by
  cases h <;> simp [slotPaths, hv]

/-- The addresses of one block share the leaf entry. -/
theorem LeafSlot.of_same_block (h : LeafSlot v shift p i) (hw : w / 2 ^ shift = v / 2 ^ shift) :
    LeafSlot w shift p i := by
  cases h
  · rw [← index_of_same_block hw (show 12 ≤ 39 by decide),
      ← index_of_same_block hw (show 12 ≤ 30 by decide),
      ← index_of_same_block hw (show 12 ≤ 21 by decide), ← index_of_same_block hw le_rfl]
    exact .small
  · rw [← index_of_same_block hw (show 21 ≤ 39 by decide),
      ← index_of_same_block hw (show 21 ≤ 30 by decide), ← index_of_same_block hw le_rfl]
    exact .size2M
  · rw [← index_of_same_block hw (show 30 ≤ 39 by decide), ← index_of_same_block hw le_rfl]
    exact .size1G

theorem canonical_of_same_block (hs : shift ≤ 47) (hw : w / 2 ^ shift = v / 2 ^ shift) :
    canonical w = canonical v := by
  have hpow : (2 : Nat) ^ 47 = 2 ^ shift * 2 ^ (47 - shift) := by
    rw [← pow_add]
    congr 1
    omega
  have h47 : w / 2 ^ 47 = v / 2 ^ 47 := by
    rw [hpow, ← Nat.div_div_eq_div_mul, ← Nat.div_div_eq_div_mul, hw]
  rw [Bool.eq_iff_iff]
  simp only [canonical, Bool.or_eq_true, Bool.and_eq_true, decide_eq_true_eq]
  omega

/-- A path through the leaf entry is that of an address of the block. -/
theorem LeafSlot.same_block (h : LeafSlot v shift p i) (hv : canonical v = true)
    (hw : canonical w = true) (hpre : p ++ [i] <+: indices w) : w / 2 ^ shift = v / 2 ^ shift := by
  simp only [canonical, Bool.or_eq_true, Bool.and_eq_true, decide_eq_true_eq] at hv hw
  cases h <;>
    simp only [indices, index, List.cons_append, List.nil_append, List.cons_prefix_cons,
      Fin.mk.injEq, List.prefix_nil, List.nil_prefix, and_true] at hpre <;> omega

end Blocks

section Edit

variable {S : Fin 512 → Prop} {m m' : Mem} {cr3 v w n e shift : Nat} {p : List (Fin 512)}
  {i : Fin 512}

/-- A present leaf entry of its level ends the walk. -/
theorem walk_of_leafSlot (hc : canonical v = true) (h : LeafSlot v shift p i)
    (hn : tableAt m cr3 p = some n) (hp : present (tables m n i) = true)
    (hsize : shift = 12 ∨ pageSize (tables m n i) = true) :
    walk m cr3 v = some (tables m n i, shift) := by
  cases h
  · rw [walk_of_ptAt hc hn, if_pos hp]
  · have hsize := hsize.resolve_left (by decide)
    simp only [tableAt, Tables.descend, Option.bind_eq_some_iff, Option.some.injEq] at hn
    obtain ⟨n₃, h₃, n₂, h₂, rfl⟩ := hn
    obtain ⟨p₃, s₃, rfl⟩ := link_eq_some.mp h₃
    obtain ⟨p₂, s₂, rfl⟩ := link_eq_some.mp h₂
    simp [walk, indices, walkFrom, hc, p₃, s₃, p₂, s₂, hp, hsize, largeLeaf]
  · have hsize := hsize.resolve_left (by decide)
    simp only [tableAt, Tables.descend, Option.bind_eq_some_iff, Option.some.injEq] at hn
    obtain ⟨n₃, h₃, rfl⟩ := hn
    obtain ⟨p₃, s₃, rfl⟩ := link_eq_some.mp h₃
    simp [walk, indices, walkFrom, hc, p₃, s₃, hp, hsize, largeLeaf]

/-- Every walk that ends has a leaf entry. -/
theorem leafSlot_of_walk (h : walk m cr3 v = some (e, shift)) :
    canonical v = true ∧ ∃ p i n, LeafSlot v shift p i ∧ tableAt m cr3 p = some n ∧ tables m n i = e ∧
      present e = true ∧ (shift = 12 ∨ pageSize e = true) := by
  unfold walk indices at h
  split_ifs at h with hc
  refine ⟨hc, ?_⟩
  -- the PML4 maps no pages
  rcases walkFrom_step (List.cons_ne_nil _ _) h with ⟨n₃, h₃, h⟩ | ⟨-, h⟩
  swap
  · cases h
  rcases walkFrom_step (List.cons_ne_nil _ _) h with ⟨n₂, h₂, h⟩ | ⟨⟨hpres, hsize⟩, h⟩
  swap
  · obtain ⟨rfl, rfl⟩ := Prod.mk.inj (Option.some.inj h)
    refine ⟨_, _, n₃, .size1G, ?_, rfl, hpres, .inr hsize⟩
    simp only [tableAt, Tables.descend, h₃, Option.bind_some]
  rcases walkFrom_step (List.cons_ne_nil _ _) h with ⟨n₁, h₁, h⟩ | ⟨⟨hpres, hsize⟩, h⟩
  swap
  · obtain ⟨rfl, rfl⟩ := Prod.mk.inj (Option.some.inj h)
    refine ⟨_, _, n₂, .size2M, ?_, rfl, hpres, .inr hsize⟩
    simp only [tableAt, Tables.descend, h₃, h₂, Option.bind_some]
  rw [walkFrom, if_pos rfl] at h
  split_ifs at h with hpres
  obtain ⟨rfl, rfl⟩ := Prod.mk.inj (Option.some.inj h)
  refine ⟨_, _, n₁, .small, ?_, rfl, by simpa using hpres, .inl rfl⟩
  simp only [tableAt, Tables.descend, h₃, h₂, h₁, Option.bind_some]

/-- An edit of a leaf entry, which links to no table before and after where its level has
tables below, keeps all paths and changes one entry. -/
theorem entries_set_leafSlot (ht : Tables.IsTree link (slotPaths S) (tables m) (frameOf cr3))
    (hv : S (index v 39)) (h : LeafSlot v shift p i) (hn : tableAt m cr3 p = some n)
    (hold : shift = 12 ∨ link (tables m n i) = none) (hnew : shift = 12 ∨ link e = none)
    (hm : tables m' = (tables m).set n i e) :
    Tables.IsTree link (slotPaths S) (tables m') (frameOf cr3) ∧
      (∀ q, (slotPaths S).mem q → tableAt m' cr3 q = tableAt m cr3 q) ∧
      ∀ q j, (slotPaths S).mem q →
        entries m' cr3 q j = if q = p ∧ j = i then some e else entries m cr3 q j := by
  have hp := h.mem hv
  simp only [tableAt, entries, hm]
  by_cases hs : shift = 12
  · -- no path of interest goes through a leaf entry of the last level
    have hleaf : ¬(slotPaths S).mem (p ++ [i]) := by
      subst hs
      cases h
      simp [slotPaths]
    exact ⟨ht.set_leaf hp hn hleaf, fun q hq => Tables.descend_set_leaf ht hp hn hleaf hq,
      fun q j hq => Tables.entryAt_set_leaf ht hp hn hleaf hq⟩
  · have hlink : link e = link (tables m n i) := by
      rw [hold.resolve_left hs, hnew.resolve_left hs]
    exact ⟨ht.set_link hlink, fun q _ => Tables.descend_set_link hlink _ q,
      fun q j hq => Tables.entryAt_set_link ht hp hn hlink hq⟩

/-- The walks of other blocks do not see a leaf entry. -/
theorem walk_off_leafSlot (hc : canonical v = true) (h : LeafSlot v shift p i)
    (hent : ∀ q j, (slotPaths S).mem q → ¬(q = p ∧ j = i) → entries m' cr3 q j = entries m cr3 q j)
    (hw : S (index w 39)) (hne : w / 2 ^ shift ≠ v / 2 ^ shift) : walk m' cr3 w = walk m cr3 w := by
  by_cases hcw : canonical w = true
  · refine walk_congr_on hw fun q j rest hq hpath => hent q j hq.mem ?_
    rintro ⟨rfl, rfl⟩
    refine hne (h.same_block hc hcw ⟨rest, ?_⟩)
    rw [hpath, List.append_assoc, List.singleton_append]
  · rw [walk, walk, if_neg hcw, if_neg hcw]

/-- The walks after an edit of a leaf entry: those of other blocks are the old ones, and
those of the block end at the new entry. -/
theorem walk_set_leafSlot (ht : Tables.IsTree link (slotPaths S) (tables m) (frameOf cr3))
    (hv : S (index v 39)) (hc : canonical v = true) (h : LeafSlot v shift p i)
    (hn : tableAt m cr3 p = some n) (hold : shift = 12 ∨ link (tables m n i) = none)
    (hpres : present e = true) (hsize : shift = 12 ∨ pageSize e = true)
    (hm : tables m' = (tables m).set n i e) :
    (∀ w, w / 2 ^ shift = v / 2 ^ shift → walk m' cr3 w = some (e, shift)) ∧
      ∀ w, S (index w 39) → w / 2 ^ shift ≠ v / 2 ^ shift → walk m' cr3 w = walk m cr3 w := by
  have hp := h.mem hv
  have hnew : shift = 12 ∨ link e = none := by
    refine hsize.imp id fun hs => ?_
    unfold link
    rw [if_neg (by simp [hs])]
  obtain ⟨-, hdesc, hent⟩ := entries_set_leafSlot ht hv h hn hold hnew hm
  have hn' : tableAt m' cr3 p = some n := (hdesc p hp).trans hn
  have hself : tables m' n i = e := by rw [hm, Tables.set_apply_self]
  refine ⟨fun w hw => ?_, fun w hw hne => ?_⟩
  · have hcw : canonical w = true := by
      rw [canonical_of_same_block (by have := h.shift_le; omega) hw, hc]
    rw [walk_of_leafSlot hcw (h.of_same_block hw) hn' (by rw [hself, hpres]) (by rwa [hself]), hself]
  · refine walk_off_leafSlot hc h (fun q j hq hqj => ?_) hw hne
    rw [hent q j hq, if_neg hqj]

end Edit

end KoalemOS.Paging
