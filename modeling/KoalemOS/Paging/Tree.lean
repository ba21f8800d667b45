import KoalemOS.Paging.Entries

/-!
# What an edit of the tables does to the walk

`entries` gives the entry at the end of every path of table indices; the hardware walk
of an address depends on the entries along its own path only (`walk_eq`). Three kinds
of edit occur in the kernel:

- a flag change of an upper entry, which keeps the link (`Grown.of_link_edit`)
- a new, empty table behind an entry that was not present (`Grown.of_fresh`)
- a leaf entry (`walk_set_leaf`)

The first two leave every walk outside the window slot as it was; `Grown` collects
what they keep, in a form that composes.
-/

namespace KoalemOS.Paging

open KoalemOS.Library KoalemOS.Mmap

/-! ## The walk along a path of entries -/

/-- The entry at the end of a path. -/
abbrev entries (m : Mem) (cr3 : Nat) (p : List (Fin 512)) (i : Fin 512) : Option Nat :=
  Tables.entryAt link (tables m) (frameOf cr3) p i

theorem entries_of_tableAt {m : Mem} {cr3 n : Nat} {p : List (Fin 512)}
    (hp : tableAt m cr3 p = some n) (i : Fin 512) : entries m cr3 p i = some (tables m n i) := by
  simp only [entries, Tables.entryAt, hp, Option.map_some]

theorem table_of_entries {m : Mem} {cr3 e : Nat} {q : List (Fin 512)} {i : Fin 512}
    (h : entries m cr3 q i = some e) : ∃ n, tableAt m cr3 q = some n ∧ tables m n i = e := by
  have hmap : (tableAt m cr3 q).map (fun n => tables m n i) = some e := h
  rwa [Option.map_eq_some_iff] at hmap

/-- The walk along `rest` as a function of the entries: from the table at `p`. -/
def leafFrom (E : List (Fin 512) → Fin 512 → Option Nat) (p : List (Fin 512)) :
    List (Fin 512) → Option (Nat × Nat)
  | [] => none
  | i :: rest =>
    match E p i with
    | none => none
    | some e =>
      if ¬present e then none
      else if rest = [] then some (e, 12)
      else if pageSize e then largeLeaf e rest.length
      else leafFrom E (p ++ [i]) rest

theorem leafFrom_entries {m : Mem} {cr3 n : Nat} {p : List (Fin 512)}
    (hp : tableAt m cr3 p = some n) (rest : List (Fin 512)) :
    leafFrom (entries m cr3) p rest = walkFrom (tables m) n rest := by
  induction rest generalizing p n with
  | nil => rfl
  | cons i rest ih =>
    simp only [leafFrom, walkFrom, entries_of_tableAt hp]
    split_ifs with h1 h2 h3
    · rfl
    · rfl
    · refine ih ?_
      rw [tableAt_concat, hp, Option.bind_some]
      exact link_eq_some.mpr ⟨h1, by simpa using h3, rfl⟩
    · rfl

/-- The walk of an address depends on the entries along its path. -/
theorem walk_eq (m : Mem) (cr3 v : Nat) :
    walk m cr3 v =
      if canonical v then leafFrom (entries m cr3) [] (indices v) else none := by
  rw [walk, leafFrom_entries rfl]

/-! ## Edits and walks -/

/-- A path and the indices still to follow make up four indices that start in `S`. -/
structure Follows (S : Fin 512 → Prop) (q rest : List (Fin 512)) : Prop where
  length : q.length + rest.length = 4
  head : ∀ i, (q ++ rest).head? = some i → S i

theorem Follows.next {S : Fin 512 → Prop} {q rest : List (Fin 512)} {j : Fin 512}
    (h : Follows S q (j :: rest)) : Follows S (q ++ [j]) rest where
  length := by
    have := h.length
    simp only [List.length_append, List.length_cons, List.length_nil] at this ⊢
    omega
  head := by
    rw [List.append_assoc]
    exact h.head

theorem Follows.mem {S : Fin 512 → Prop} {q rest : List (Fin 512)} {j : Fin 512}
    (h : Follows S q (j :: rest)) : (slotPaths S).mem q := by
  have hlen := h.length
  have hhead := h.head
  simp only [List.length_cons] at hlen
  refine ⟨by omega, ?_⟩
  cases q with
  | nil => simp
  | cons k q => simpa using hhead

theorem follows_indices {S : Fin 512 → Prop} {v : Nat} (hv : S (index v 39)) :
    Follows S [] (indices v) :=
  ⟨rfl, by simpa [indices] using hv⟩

/-- Equal entries give equal walks. -/
theorem leafFrom_congr {S : Fin 512 → Prop} {E E' : List (Fin 512) → Fin 512 → Option Nat}
    (h : ∀ q j, (slotPaths S).mem q → E' q j = E q j) {q rest : List (Fin 512)}
    (hq : Follows S q rest) : leafFrom E' q rest = leafFrom E q rest := by
  induction rest generalizing q with
  | nil => rfl
  | cons j rest ih =>
    simp only [leafFrom]
    rw [h q j hq.mem]
    cases E q j with
    | none => rfl
    | some x => simp only [ih hq.next]

section Edits

variable {S : Fin 512 → Prop} {E E' : List (Fin 512) → Fin 512 → Option Nat} {p : List (Fin 512)}
  {i : Fin 512} {e e' : Nat}

/-- Replacing a link by a link changes no walk. -/
theorem leafFrom_congr_link (hp : p.length ≤ 2) (hold : E p i = some e) (hnew : E' p i = some e')
    (hl : link e ≠ none) (hl' : link e' ≠ none)
    (hoff : ∀ q j, (slotPaths S).mem q → ¬(q = p ∧ j = i) → E' q j = E q j)
    {q rest : List (Fin 512)} (hq : Follows S q rest) : leafFrom E' q rest = leafFrom E q rest := by
  induction rest generalizing q with
  | nil => rfl
  | cons j rest ih =>
    simp only [leafFrom]
    by_cases hc : q = p ∧ j = i
    · -- the edited entry: both values lead on to the next level
      obtain ⟨rfl, rfl⟩ := hc
      have hrest : rest ≠ [] := by
        rintro rfl
        have := hq.length
        simp only [List.length_cons, List.length_nil] at this
        omega
      obtain ⟨n, hn⟩ := Option.ne_none_iff_exists'.mp hl
      obtain ⟨n', hn'⟩ := Option.ne_none_iff_exists'.mp hl'
      obtain ⟨h1, h2, -⟩ := link_eq_some.mp hn
      obtain ⟨h1', h2', -⟩ := link_eq_some.mp hn'
      simp only [hold, hnew, h1, h2, h1', h2', hrest, not_true_eq_false, if_false,
        Bool.false_eq_true]
      exact ih hq.next
    · rw [hoff q j hq.mem hc]
      cases E q j with
      | none => rfl
      | some x => simp only [ih hq.next]

/-- A link to an empty table leads nowhere, as the absent entry before it did. -/
theorem leafFrom_congr_fresh (hp : p.length ≤ 2) (hold : E p i = some e)
    (hnone : present e = false) (hnew : E' p i = some e') (hl' : link e' ≠ none)
    (hempty : ∀ j, E' (p ++ [i]) j = some 0)
    (hoff : ∀ q j, (slotPaths S).mem q → ¬(q = p ∧ j = i) → q ≠ p ++ [i] → E' q j = E q j)
    {q rest : List (Fin 512)} (hq : Follows S q rest) (hpre : ¬(p ++ [i]) <+: q) :
    leafFrom E' q rest = leafFrom E q rest := by
  induction rest generalizing q with
  | nil => rfl
  | cons j rest ih =>
    simp only [leafFrom]
    by_cases hc : q = p ∧ j = i
    · obtain ⟨rfl, rfl⟩ := hc
      cases rest with
      | nil =>
        have := hq.length
        simp only [List.length_cons, List.length_nil] at this
        omega
      | cons k rest =>
        obtain ⟨n', hn'⟩ := Option.ne_none_iff_exists'.mp hl'
        obtain ⟨h1', h2', -⟩ := link_eq_some.mp hn'
        have hzero : present 0 = false := rfl
        simp [hold, hnew, hnone, h1', h2', leafFrom, hempty, hzero]
    · have hne : q ≠ p ++ [i] := by
        rintro rfl
        exact hpre List.prefix_rfl
      have hpre' : ¬(p ++ [i]) <+: q ++ [j] := by
        intro h
        rcases List.prefix_concat_iff.mp h with h | h
        · obtain ⟨h1, h2⟩ := List.append_inj' h rfl
          exact hc ⟨h1.symm, by simpa using h2.symm⟩
        · exact hpre h
      rw [hoff q j hq.mem hc hne]
      cases E q j with
      | none => rfl
      | some x => simp only [ih hq.next hpre']

/-- Only the walks that end at a leaf entry see an edit of it. -/
theorem leafFrom_congr_leaf (hp : p.length = 3)
    (hoff : ∀ q j, (slotPaths S).mem q → ¬(q = p ∧ j = i) → E' q j = E q j)
    {q rest : List (Fin 512)} (hq : Follows S q rest) (hne : q ++ rest ≠ p ++ [i]) :
    leafFrom E' q rest = leafFrom E q rest := by
  induction rest generalizing q with
  | nil => rfl
  | cons j rest ih =>
    simp only [leafFrom]
    have hc : ¬(q = p ∧ j = i) := by
      rintro ⟨rfl, rfl⟩
      have hlen := hq.length
      simp only [List.length_cons] at hlen
      have hrest : rest = [] := List.eq_nil_of_length_eq_zero (by omega)
      exact hne (by rw [hrest])
    rw [hoff q j hq.mem hc]
    cases E q j with
    | none => rfl
    | some x =>
      have hnext : q ++ [j] ++ rest ≠ p ++ [i] := by simpa using hne
      simp only [ih hq.next hnext]

end Edits

/-! ## Growing the tree -/

/-- The entries above the leaf entry on the path of an address. -/
inductive UpperOf (v : Nat) : List (Fin 512) → Fin 512 → Prop
  | pml4 : UpperOf v [] (index v 39)
  | pdpt : UpperOf v [index v 39] (index v 30)
  | pd : UpperOf v [index v 39, index v 30] (index v 21)

/-- No large page maps the address. -/
def NoLargePage (m : Mem) (cr3 v : Nat) : Prop :=
  ∀ p i, UpperOf v p i → ∀ e, entries m cr3 p i = some e → present e = true → pageSize e = false

/-- Behind the slots in `S`, the tables of `m` are tables of `m'`, the further ones are
`fresh`, and no walk has changed. -/
structure GrownIn (S : Fin 512 → Prop) (cr3 : Nat) (m m' : Mem) (fresh : List Nat) : Prop where
  tree : Tables.IsTree link (slotPaths S) (tables m') (frameOf cr3)
  keep : ∀ p n, (slotPaths S).mem p → tableAt m cr3 p = some n → tableAt m' cr3 p = some n
  reach : ∀ n, IsTableIn S m' cr3 n → IsTableIn S m cr3 n ∨ n ∈ fresh
  isTable : ∀ n ∈ fresh, IsTableIn S m' cr3 n
  walk : ∀ v, S (index v 39) → walk m' cr3 v = walk m cr3 v
  noLarge : ∀ v, S (index v 39) → NoLargePage m cr3 v → NoLargePage m' cr3 v
  rows : ∀ n, ¬IsTableIn S m cr3 n → n ∉ fresh → tables m' n = tables m n

/-- The same for all slots but the window slot, which stays what it was. -/
structure Grown (cr3 : Nat) (m m' : Mem) (fresh : List Nat) : Prop
    extends GrownIn (· ≠ 511) cr3 m m' fresh where
  selfMap : link (tables m' (frameOf cr3) 511) = some (frameOf cr3)
  window : tables m' (frameOf cr3) 511 = tables m (frameOf cr3) 511

theorem UpperOf.mem {S : Fin 512 → Prop} {v : Nat} {p : List (Fin 512)} {i : Fin 512}
    (h : UpperOf v p i) (hv : S (index v 39)) :
    (slotPaths S).mem p ∧ (slotPaths S).mem (p ++ [i]) := by
  cases h <;> simp [slotPaths, hv]

/-- Memory that agrees on the tables holds the same tables. -/
theorem tablesIn_congr {S : Fin 512 → Prop} {m m' : Mem} {cr3 : Nat}
    (h : ∀ n, IsTableIn S m cr3 n → tables m' n = tables m n) :
    (∀ p, (slotPaths S).mem p → tableAt m' cr3 p = tableAt m cr3 p) ∧
      (∀ v, S (index v 39) → walk m' cr3 v = walk m cr3 v) ∧
      ∀ v, S (index v 39) → NoLargePage m cr3 v → NoLargePage m' cr3 v := by
  have hreached : ∀ p n, (slotPaths S).mem p → tableAt m cr3 p = some n →
      tables m' n = tables m n := fun p n hp hn => h n ⟨p, hp, hn⟩
  have hent : ∀ q j, (slotPaths S).mem q → entries m' cr3 q j = entries m cr3 q j :=
    fun q j hq => Tables.entryAt_congr_of_reached hreached hq
  refine ⟨fun p hp => Tables.descend_congr_of_reached hreached hp, fun v hv => ?_,
    fun v hv hlarge q j hu x hx => ?_⟩
  · rw [walk_eq, walk_eq, leafFrom_congr hent (follows_indices hv)]
  · rw [hent q j (hu.mem hv).1] at hx
    exact hlarge q j hu x hx

section Growing

variable {S : Fin 512 → Prop} {m m' m'' : Mem} {cr3 : Nat} {fresh fresh' : List Nat}

theorem GrownIn.refl (h : Tables.IsTree link (slotPaths S) (tables m) (frameOf cr3)) :
    GrownIn S cr3 m m [] where
  tree := h
  keep _ _ _ hn := hn
  reach _ hn := .inl hn
  isTable _ hn := by simp at hn
  walk _ _ := rfl
  noLarge _ _ hl := hl
  rows _ _ _ := rfl

theorem GrownIn.isTable_mono (h : GrownIn S cr3 m m' fresh) {n : Nat} (hn : IsTableIn S m cr3 n) :
    IsTableIn S m' cr3 n := by
  obtain ⟨p, hp, hpn⟩ := hn
  exact ⟨p, hp, h.keep p n hp hpn⟩

theorem GrownIn.trans (h : GrownIn S cr3 m m' fresh) (h' : GrownIn S cr3 m' m'' fresh') :
    GrownIn S cr3 m m'' (fresh ++ fresh') where
  tree := h'.tree
  keep p n hp hn := h'.keep p n hp (h.keep p n hp hn)
  reach n hn := by
    rcases h'.reach n hn with hn | hn
    · exact (h.reach n hn).imp id (List.mem_append_left _)
    · exact .inr (List.mem_append_right _ hn)
  isTable n hn := by
    rcases List.mem_append.mp hn with hn | hn
    · exact h'.isTable_mono (h.isTable n hn)
    · exact h'.isTable n hn
  walk v hv := (h'.walk v hv).trans (h.walk v hv)
  noLarge v hv hl := h'.noLarge v hv (h.noLarge v hv hl)
  rows n hn hf := by
    rw [List.mem_append, not_or] at hf
    rw [h'.rows n (fun hn' => (h.reach n hn').elim hn hf.1) hf.2, h.rows n hn hf.1]

theorem Grown.pageTables (h : Grown cr3 m m' fresh) : PageTables m' cr3 := ⟨h.selfMap, h.tree⟩

theorem Grown.refl (h : PageTables m cr3) : Grown cr3 m m [] :=
  ⟨GrownIn.refl h.tree, h.selfMap, rfl⟩

theorem Grown.trans (h : Grown cr3 m m' fresh) (h' : Grown cr3 m' m'' fresh') :
    Grown cr3 m m'' (fresh ++ fresh') :=
  ⟨h.toGrownIn.trans h'.toGrownIn, h'.selfMap, h'.window.trans h.window⟩

/-- Growth that leaves the window slot alone. -/
theorem GrownIn.grown (h : GrownIn (· ≠ 511) cr3 m m' fresh) (hm : PageTables m cr3)
    (hwindow : tables m' (frameOf cr3) 511 = tables m (frameOf cr3) 511) :
    Grown cr3 m m' fresh :=
  ⟨h, by rw [hwindow, hm.selfMap], hwindow⟩

/-- The window slot is not at the end of a path to a table. -/
theorem ne_window {p : List (Fin 512)} {i : Fin 512} {n : Nat} (h : PageTables m cr3)
    (hp : tablePaths.mem (p ++ [i])) (hn : tableAt m cr3 p = some n) :
    frameOf cr3 ≠ n ∨ 511 ≠ i := by
  by_contra hc
  push Not at hc
  obtain ⟨rfl, rfl⟩ := hc
  have hnil := h.tree [] p _ tablePaths.nil_mem (tablePaths.init_mem p _ hp) rfl hn
  rw [← hnil] at hp
  exact hp.2 511 rfl rfl

/-- A path to a table below another one has at most two indices. -/
theorem length_le_two {p : List (Fin 512)} {i : Fin 512} (hp : (slotPaths S).mem (p ++ [i])) :
    p.length ≤ 2 := by
  have := hp.1
  simp only [List.length_append, List.length_singleton] at this
  omega

/-- Changing a link without changing where it leads. -/
theorem GrownIn.of_link_edit {p : List (Fin 512)} {i : Fin 512} {n e : Nat}
    (h : Tables.IsTree link (slotPaths S) (tables m) (frameOf cr3))
    (hp : (slotPaths S).mem (p ++ [i])) (hn : tableAt m cr3 p = some n)
    (hl : link (tables m n i) ≠ none) (he : link e = link (tables m n i))
    (hm : tables m' = (tables m).set n i e) : GrownIn S cr3 m m' [] := by
  have hp' := (slotPaths S).init_mem p i hp
  have hdesc : ∀ q, tableAt m' cr3 q = tableAt m cr3 q := by
    intro q
    rw [tableAt, hm]
    exact Tables.descend_set_link he _ q
  have hent : ∀ q j, (slotPaths S).mem q →
      entries m' cr3 q j = if q = p ∧ j = i then some e else entries m cr3 q j := by
    intro q j hq
    rw [entries, hm]
    exact Tables.entryAt_set_link h hp' hn he hq
  have hold := entries_of_tableAt hn i
  refine ⟨?_, fun q k _ hk => ?_, fun k hk => ?_, by simp, fun v hv => ?_,
    fun v hv hlarge q j hu x hx hpx => ?_, fun k hk _ => ?_⟩
  · rw [hm]
    exact h.set_link he
  · rw [hdesc]
    exact hk
  · obtain ⟨q, hq, hk⟩ := hk
    rw [hdesc] at hk
    exact .inl ⟨q, hq, hk⟩
  · rw [walk_eq, walk_eq]
    split_ifs
    · refine leafFrom_congr_link (length_le_two hp) hold ?_ hl (by rw [he]; exact hl)
        (fun q j hq hc => ?_) (follows_indices hv)
      · rw [hent p i hp', if_pos ⟨rfl, rfl⟩]
      · rw [hent q j hq, if_neg hc]
    · rfl
  · rw [hent q j (hu.mem hv).1] at hx
    split_ifs at hx with hc
    · obtain ⟨k, hk⟩ := Option.ne_none_iff_exists'.mp hl
      rw [← he] at hk
      rw [← Option.some.inj hx]
      exact (link_eq_some.mp hk).2.1
    · exact hlarge q j hu x hx hpx
  · funext j
    rw [hm, Tables.set_apply_of_ne]
    refine .inl ?_
    rintro rfl
    exact hk ⟨p, hp', hn⟩

/-- The paths and entries after an unreached frame has been zeroed and linked behind an
absent entry. -/
theorem entries_of_fresh {p : List (Fin 512)} {i : Fin 512} {n f e : Nat}
    (h : Tables.IsTree link (slotPaths S) (tables m) (frameOf cr3))
    (hp : (slotPaths S).mem (p ++ [i])) (hn : tableAt m cr3 p = some n)
    (habs : present (tables m n i) = false) (he : link e = some f) (hf : ¬IsTableIn S m cr3 f)
    (hm : tables m' = ((tables m).clear f 0).set n i e) :
    Tables.IsTree link (slotPaths S) (tables m') (frameOf cr3) ∧
      (∀ q, (slotPaths S).mem q →
        tableAt m' cr3 q = if q = p ++ [i] then some f else tableAt m cr3 q) ∧
      ∀ q j, (slotPaths S).mem q → entries m' cr3 q j =
        if q = p ∧ j = i then some e else if q = p ++ [i] then some 0 else entries m cr3 q j := by
  have hp' := (slotPaths S).init_mem p i hp
  have hunr : Tables.Unreached link (slotPaths S) (tables m) (frameOf cr3) f :=
    fun q hq hqf => hf ⟨q, hq, hqf⟩
  -- zeroing the frame alone: no path leads there, so nothing changes
  set Z := (tables m).clear f 0
  have hZ : ∀ k, k ≠ f → ∀ j, Z k j = tables m k j := fun k hk j => Tables.clear_apply_of_ne hk
  have hzero : ∀ j, Z f j = 0 := fun j => Tables.clear_apply_self
  have hdescZ : ∀ q, (slotPaths S).mem q →
      Tables.descend link Z (frameOf cr3) q = tableAt m cr3 q := fun q hq =>
    Tables.descend_congr hZ hunr hq
  have hentZ : ∀ q j, (slotPaths S).mem q →
      Tables.entryAt link Z (frameOf cr3) q j = entries m cr3 q j := fun q j hq =>
    Tables.entryAt_congr hZ hunr hq
  have hunrZ : Tables.Unreached link (slotPaths S) Z (frameOf cr3) f := by
    intro q hq
    rw [hdescZ q hq]
    exact hunr q hq
  have htreeZ := h.congr hdescZ
  have hnZ : Tables.descend link Z (frameOf cr3) p = some n := by rw [hdescZ p hp', hn]
  have hfn : n ≠ f := fun hc => hf ⟨p, hp', by rw [hn, hc]⟩
  have habsZ : link (Z n i) = none := by
    rw [hZ n hfn]
    exact link_of_not_present habs
  have hlz : ∀ j, link (Z f j) = none := fun j => by rw [hzero]; rfl
  refine ⟨?_, fun q hq => ?_, fun q j hq => ?_⟩
  · rw [hm]
    exact htreeZ.set_fresh hp' hnZ habsZ he hunrZ hlz
  · rw [tableAt, hm, Tables.descend_set_fresh htreeZ hp' hnZ habsZ he hunrZ hlz hq, hdescZ q hq]
  · rw [entries, hm, Tables.entryAt_set_fresh htreeZ hp' hnZ habsZ he hunrZ hlz hq, hentZ q j hq,
      hzero]

/-- Linking an unreached frame, which is zeroed at the same time, behind an absent entry. -/
theorem GrownIn.of_fresh {p : List (Fin 512)} {i : Fin 512} {n f e : Nat}
    (h : Tables.IsTree link (slotPaths S) (tables m) (frameOf cr3))
    (hp : (slotPaths S).mem (p ++ [i])) (hn : tableAt m cr3 p = some n)
    (habs : present (tables m n i) = false) (he : link e = some f) (hf : ¬IsTableIn S m cr3 f)
    (hm : tables m' = ((tables m).clear f 0).set n i e) :
    GrownIn S cr3 m m' [f] ∧ tableAt m' cr3 (p ++ [i]) = some f := by
  have hp' := (slotPaths S).init_mem p i hp
  obtain ⟨htree, hdesc, hent⟩ := entries_of_fresh h hp hn habs he hf hm
  have hpi : p ++ [i] ≠ p := by
    intro hc
    have := congrArg List.length hc
    simp only [List.length_append, List.length_singleton] at this
    omega
  have hnew : tableAt m' cr3 (p ++ [i]) = some f := by rw [hdesc _ hp, if_pos rfl]
  refine ⟨⟨?_, fun q k hq hk => ?_, fun k hk => ?_, fun k hk => ?_, fun v hv => ?_,
    fun v hv hlarge q j hu x hx hpx => ?_, fun k hk hkf => ?_⟩, hnew⟩
  · exact htree
  · rw [hdesc q hq, if_neg, hk]
    rintro rfl
    rw [tableAt_concat, hn, Option.bind_some, link_of_not_present habs] at hk
    simp at hk
  · obtain ⟨q, hq, hk⟩ := hk
    rw [hdesc q hq] at hk
    split_ifs at hk with hc
    · exact .inr (by simp [Option.some.inj hk])
    · exact .inl ⟨q, hq, hk⟩
  · rw [List.mem_singleton.mp hk]
    exact ⟨_, hp, hnew⟩
  · rw [walk_eq, walk_eq]
    split_ifs
    · have hle : link e ≠ none := by simp [he]
      refine leafFrom_congr_fresh (length_le_two hp) (entries_of_tableAt hn i) habs ?_ hle
        (fun j => ?_) (fun q j hq hc hne => ?_) (follows_indices hv) (by simp)
      · rw [hent p i hp', if_pos ⟨rfl, rfl⟩]
      · rw [hent _ j hp, if_neg (fun hc => hpi hc.1), if_pos rfl]
      · rw [hent q j hq, if_neg hc, if_neg hne]
    · rfl
  · rw [hent q j (hu.mem hv).1] at hx
    split_ifs at hx with hc hc'
    · rw [← Option.some.inj hx]
      exact (link_eq_some.mp he).2.1
    · rw [← Option.some.inj hx] at hpx
      exact absurd hpx (by decide)
    · exact hlarge q j hu x hx hpx
  · rw [List.mem_singleton] at hkf
    funext j
    rw [hm, Tables.set_apply_of_ne, Tables.clear_apply_of_ne hkf]
    refine .inl ?_
    rintro rfl
    exact hk ⟨p, hp', hn⟩

/-- An edit of a link of the kernel's tables. -/
theorem Grown.of_link_edit {p : List (Fin 512)} {i : Fin 512} {n e : Nat} (h : PageTables m cr3)
    (hp : tablePaths.mem (p ++ [i])) (hn : tableAt m cr3 p = some n)
    (hl : link (tables m n i) ≠ none) (he : link e = link (tables m n i))
    (hm : tables m' = (tables m).set n i e) : Grown cr3 m m' [] := by
  refine (GrownIn.of_link_edit h.tree hp hn hl he hm).grown h ?_
  rw [hm, Tables.set_apply_of_ne (ne_window h hp hn)]

/-- A new table among the kernel's tables. -/
theorem Grown.of_fresh {p : List (Fin 512)} {i : Fin 512} {n f e : Nat} (h : PageTables m cr3)
    (hp : tablePaths.mem (p ++ [i])) (hn : tableAt m cr3 p = some n)
    (habs : present (tables m n i) = false) (he : link e = some f) (hf : ¬IsTable m cr3 f)
    (hm : tables m' = ((tables m).clear f 0).set n i e) :
    Grown cr3 m m' [f] ∧ tableAt m' cr3 (p ++ [i]) = some f := by
  obtain ⟨hgrown, hnew⟩ := GrownIn.of_fresh h.tree hp hn habs he hf hm
  have hroot : frameOf cr3 ≠ f := fun hc => hf (hc ▸ isTable_root _ m cr3)
  refine ⟨hgrown.grown h ?_, hnew⟩
  rw [hm, Tables.set_apply_of_ne (ne_window h hp hn), Tables.clear_apply_of_ne hroot]

end Growing

/-! ## Leaf entries -/

variable {m m' : Mem} {cr3 : Nat}

/-- Canonical addresses with the same indices lie in the same page. -/
theorem same_page_of_indices {v w : Nat} (hv : canonical v = true) (hw : canonical w = true)
    (h : indices v = indices w) : v / 4096 = w / 4096 := by
  simp only [indices, index, List.cons.injEq, Fin.mk.injEq, and_true] at h
  simp only [canonical, Bool.or_eq_true, Bool.and_eq_true, decide_eq_true_eq] at hv hw
  omega

/-- The indices of an address are those of its page. -/
theorem index_of_same_page {v w : Nat} (h : v / 4096 = w / 4096) {k : Nat} (hk : 12 ≤ k) :
    index v k = index w k := by
  have hpow : 2 ^ k = 4096 * 2 ^ (k - 12) := by
    rw [show (4096 : Nat) = 2 ^ 12 from rfl, ← pow_add]
    congr 1
    omega
  apply Fin.ext
  simp only [index]
  rw [hpow, ← Nat.div_div_eq_div_mul, ← Nat.div_div_eq_div_mul, h]

theorem indices_of_same_page {v w : Nat} (h : v / 4096 = w / 4096) : indices v = indices w := by
  simp only [indices, index_of_same_page h (show 12 ≤ 39 by decide),
    index_of_same_page h (show 12 ≤ 30 by decide), index_of_same_page h (show 12 ≤ 21 by decide),
    index_of_same_page h (show 12 ≤ 12 by decide)]

theorem canonical_of_same_page {v w : Nat} (h : v / 4096 = w / 4096) :
    canonical v = canonical w := by
  rw [Bool.eq_iff_iff]
  simp only [canonical, Bool.or_eq_true, Bool.and_eq_true, decide_eq_true_eq]
  omega

/-- The page table of an address, at the end of its path. -/
abbrev ptAt (m : Mem) (cr3 v : Nat) : Option Nat :=
  tableAt m cr3 [index v 39, index v 30, index v 21]

/-- The walk of an address whose page table is present ends at its leaf entry. -/
theorem walk_of_ptAt {v n : Nat} (hc : canonical v = true) (hn : ptAt m cr3 v = some n) :
    walk m cr3 v =
      if present (tables m n (index v 12)) then some (tables m n (index v 12), 12) else none := by
  simp only [ptAt, tableAt, Tables.descend, Option.bind_eq_some_iff, Option.some.injEq] at hn
  obtain ⟨n₃, h₃, n₂, h₂, n₁, h₁, rfl⟩ := hn
  obtain ⟨p₃, s₃, rfl⟩ := link_eq_some.mp h₃
  obtain ⟨p₂, s₂, rfl⟩ := link_eq_some.mp h₂
  obtain ⟨p₁, s₁, rfl⟩ := link_eq_some.mp h₁
  simp only [walk, hc, indices, walkFrom, p₃, s₃, p₂, s₂, p₁, s₁, if_true, if_false,
    not_true_eq_false, reduceCtorEq, Bool.false_eq_true]
  by_cases h : present (tables m (frameOf (tables m (frameOf (tables m (frameOf (tables m
    (frameOf cr3) (index v 39))) (index v 30))) (index v 21))) (index v 12)) <;> simp [h]

/-- A walk goes on in the table behind a link, or ends at the entry of a large page. -/
theorem walkFrom_step {T : Tables Nat (Fin 512) Nat} {n e shift : Nat} {i : Fin 512}
    {rest : List (Fin 512)} (hrest : rest ≠ [])
    (h : walkFrom T n (i :: rest) = some (e, shift)) :
    (∃ k, link (T n i) = some k ∧ walkFrom T k rest = some (e, shift)) ∨
      (present (T n i) = true ∧ pageSize (T n i) = true) ∧ largeLeaf (T n i) rest.length = some (e, shift) := by
  rw [walkFrom, if_neg hrest] at h
  split_ifs at h with hpres hsize
  · exact .inr ⟨⟨by simpa using hpres, hsize⟩, h⟩
  · exact .inl ⟨_, link_eq_some.mpr ⟨by simpa using hpres, by simpa using hsize, rfl⟩, h⟩

/-- A walk that ends at an entry for a small page follows a link at each level above. -/
theorem link_of_walkFrom {T : Tables Nat (Fin 512) Nat} {n pte : Nat} {i : Fin 512}
    {rest : List (Fin 512)} (hrest : rest ≠ []) (h : walkFrom T n (i :: rest) = some (pte, 12)) :
    ∃ k, link (T n i) = some k ∧ walkFrom T k rest = some (pte, 12) := by
  refine (walkFrom_step hrest h).resolve_right ?_
  rintro ⟨-, hleaf⟩
  generalize rest.length = l at hleaf
  match l, hleaf with
  | 1, hleaf | 2, hleaf => cases hleaf

/-- A walk that ends at an entry for a small page goes through a page table. -/
theorem ptAt_of_walk {v pte : Nat} (h : walk m cr3 v = some (pte, 12)) :
    ∃ n, ptAt m cr3 v = some n ∧ tables m n (index v 12) = pte := by
  unfold walk indices at h
  split_ifs at h with hc
  obtain ⟨n₃, h₃, h⟩ := link_of_walkFrom (by simp) h
  obtain ⟨n₂, h₂, h⟩ := link_of_walkFrom (by simp) h
  obtain ⟨n₁, h₁, h⟩ := link_of_walkFrom (by simp) h
  simp only [walkFrom, if_true] at h
  split_ifs at h with hp
  refine ⟨n₁, ?_, (Prod.mk.inj (Option.some.inj h)).1⟩
  simp only [ptAt, tableAt, Tables.descend, h₃, h₂, h₁, Option.bind_some]
/-- A store of a leaf entry: the tables and all other walks stay. -/
theorem walkIn_set_leaf {S : Fin 512 → Prop} {v n e : Nat}
    (h : Tables.IsTree link (slotPaths S) (tables m) (frameOf cr3)) (hv : S (index v 39))
    (hn : ptAt m cr3 v = some n) (hm : tables m' = (tables m).set n (index v 12) e) :
    Tables.IsTree link (slotPaths S) (tables m') (frameOf cr3) ∧
      (∀ p, (slotPaths S).mem p → tableAt m' cr3 p = tableAt m cr3 p) ∧
      (∀ w, S (index w 39) → indices w ≠ indices v → walk m' cr3 w = walk m cr3 w) ∧
      (∀ w, S (index w 39) → NoLargePage m cr3 w → NoLargePage m' cr3 w) := by
  set p : List (Fin 512) := [index v 39, index v 30, index v 21] with hpdef
  have hp : (slotPaths S).mem p := by simp [slotPaths, hpdef, hv]
  have hleaf : ¬(slotPaths S).mem (p ++ [index v 12]) := by simp [slotPaths, hpdef]
  have hdesc : ∀ q, (slotPaths S).mem q → tableAt m' cr3 q = tableAt m cr3 q := by
    intro q hq
    rw [tableAt, hm]
    exact Tables.descend_set_leaf h hp hn hleaf hq
  have hent : ∀ q j, (slotPaths S).mem q → entries m' cr3 q j =
      if q = p ∧ j = index v 12 then some e else entries m cr3 q j := by
    intro q j hq
    rw [entries, hm]
    exact Tables.entryAt_set_leaf h hp hn hleaf hq
  refine ⟨?_, hdesc, fun w hw hne => ?_, fun w hw hlarge q j hu x hx => ?_⟩
  · rw [hm]
    exact h.set_leaf hp hn hleaf
  · rw [walk_eq, walk_eq]
    split_ifs
    · refine leafFrom_congr_leaf (p := p) (i := index v 12) rfl (fun q j hq hqj => ?_)
        (follows_indices hw) ?_
      · rw [hent q j hq, if_neg hqj]
      · exact hne
    · rfl
  · rw [hent q j (hu.mem hw).1] at hx
    have hqp : ¬(q = p ∧ j = index v 12) := by
      rintro ⟨rfl, -⟩
      have := (hu.mem hw).2.1
      simp [hpdef] at this
    rw [if_neg hqp] at hx
    exact hlarge q j hu x hx

/-- The same for the kernel's tables. -/
theorem walk_set_leaf {v n e : Nat} (h : PageTables m cr3) (hv : index v 39 ≠ 511)
    (hn : ptAt m cr3 v = some n) (hm : tables m' = (tables m).set n (index v 12) e) :
    PageTables m' cr3 ∧ (∀ p, tablePaths.mem p → tableAt m' cr3 p = tableAt m cr3 p) ∧
      (∀ w, index w 39 ≠ 511 → w / 4096 ≠ v / 4096 → canonical v = true →
        walk m' cr3 w = walk m cr3 w) ∧
      (∀ w, index w 39 ≠ 511 → NoLargePage m cr3 w → NoLargePage m' cr3 w) ∧
      tables m' (frameOf cr3) 511 = tables m (frameOf cr3) 511 := by
  obtain ⟨htree, hdesc, hwalk, hlarge⟩ := walkIn_set_leaf h.tree hv hn hm
  have hwindow : tables m' (frameOf cr3) 511 = tables m (frameOf cr3) 511 := by
    rw [hm, Tables.set_apply_of_ne]
    refine .inl fun hrn => ?_
    have hroot : tableAt m cr3 [] = some n := congrArg some hrn
    have hp : tablePaths.mem [index v 39, index v 30, index v 21] := (UpperOf.pd.mem hv).2
    have hnil := h.tree _ _ n tablePaths.nil_mem hp hroot hn
    simp at hnil
  refine ⟨⟨by rw [hwindow, h.selfMap], htree⟩, hdesc, fun w hw hne hc => ?_, hlarge, hwindow⟩
  by_cases hcw : canonical w = true
  · exact hwalk w hw fun hpath => hne (same_page_of_indices hcw hc hpath)
  · rw [walk, walk, if_neg hcw, if_neg hcw]

end KoalemOS.Paging
