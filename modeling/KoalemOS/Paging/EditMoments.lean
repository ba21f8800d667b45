import KoalemOS.Paging.EditSteps

/-!
# What other processors see while a page is edited (`src/kernel/memory.c`)

Between two accesses of the editor another processor may translate any address. `alloc_phys_pages`
answers 0 or any frame that is no table, whatever the frame holds: `phys_mmap` is shared, and so was the
frame. A new table is linked before it is zeroed, so a page that has no page table may for a moment be
mapped anywhere; the other pages never notice.

- `TableOp.step`: an access while others run
- `Unmoved`: the tables may have grown, and all walks are what they were
- `Steady`: the walks of the other pages that are mapped, or have a page table
- `mapPage_moments`, `unmapPage_moments`: `Steady` at every moment, and what there is at the end
-/

namespace KoalemOS.Paging

open KoalemOS.Library KoalemOS.Mmap

/-- An access: what it answers, and the memory behind it. All it needs is a translation: the R/W bits
on the way are not looked at (see `ProtectedRun`). -/
def TableOp.step (cr3 : Nat) : (o : TableOp) → Mem → o.Answer → Mem → Prop
  | .read v, m, x, m' => ∃ a, translate m cr3 v = some a ∧ x = m.load64 a ∧ m' = m
  | .write v x, m, _, m' => ∃ a, translate m cr3 v = some a ∧ m' = m.store64 a x
  | .allocFrame, m, a, m' =>
    a = 0 ∧ m' = m ∨ GoodFrame m cr3 a ∧ ∀ n, n ≠ a / 4096 → tables m' n = tables m n

/-! ## What stays -/

/-- The tables may have grown; all walks are what they were. -/
structure Unmoved (cr3 : Nat) (m m' : Mem) : Prop where
  pageTables : PageTables m' cr3
  keep : ∀ p n, tablePaths.mem p → tableAt m cr3 p = some n → tableAt m' cr3 p = some n
  walk : ∀ w, index w 39 ≠ 511 → walk m' cr3 w = walk m cr3 w
  noLarge : ∀ w, index w 39 ≠ 511 → NoLargePage m cr3 w → NoLargePage m' cr3 w

/-- The page is mapped, or has a page table. -/
def InTables (m : Mem) (cr3 w : Nat) : Prop := (∃ n, ptAt m cr3 w = some n) ∨ walk m cr3 w ≠ none

/-- The tables that were there are there, and the walks of the pages in them, other than the page of
`v`, are what they were. -/
structure Steady (cr3 v : Nat) (m m' : Mem) : Prop where
  keep : ∀ p n, tablePaths.mem p → tableAt m cr3 p = some n → tableAt m' cr3 p = some n
  walk : ∀ w, index w 39 ≠ 511 → w / 4096 ≠ v / 4096 → InTables m cr3 w → walk m' cr3 w = walk m cr3 w

/-- A part of `map_page` has made sure of the table at a path. -/
structure HasTable (cr3 : Nat) (p : List (Fin 512)) (m m' : Mem) : Prop extends Unmoved cr3 m m' where
  table : ∃ k, tableAt m' cr3 p = some k

section Stays

variable {cr3 v n f k : Nat} {m m' m'' : Mem} {p : List (Fin 512)} {i : Fin 512}

theorem Unmoved.trans (h : Unmoved cr3 m m') (h' : Unmoved cr3 m' m'') : Unmoved cr3 m m'' where
  pageTables := h'.pageTables
  keep p n hp hn := h'.keep p n hp (h.keep p n hp hn)
  walk w hw := (h'.walk w hw).trans (h.walk w hw)
  noLarge w hw hl := h'.noLarge w hw (h.noLarge w hw hl)

theorem Unmoved.refl (h : PageTables m cr3) : Unmoved cr3 m m :=
  ⟨h, fun _ _ _ hn => hn, fun _ _ => rfl, fun _ _ hl => hl⟩

theorem Grown.unmoved {fresh : List Nat} (h : Grown cr3 m m' fresh) : Unmoved cr3 m m' :=
  ⟨h.pageTables, h.keep, h.walk, h.noLarge⟩

theorem Unmoved.steady (h : Unmoved cr3 m m') : Steady cr3 v m m' :=
  ⟨h.keep, fun w hw _ _ => h.walk w hw⟩

theorem Steady.refl : Steady cr3 v m m := ⟨fun _ _ _ hn => hn, fun _ _ _ _ => rfl⟩

theorem mem_ptPath {w : Nat} (hw : index w 39 ≠ 511) : tablePaths.mem [index w 39, index w 30, index w 21] :=
  (UpperOf.pd.mem (v := w) hw).2

theorem Steady.inTables (h : Steady cr3 v m m') {w : Nat} (hw : index w 39 ≠ 511)
    (hne : w / 4096 ≠ v / 4096) (ht : InTables m cr3 w) : InTables m' cr3 w := by
  rcases ht with ⟨n, hn⟩ | hwalk
  · exact .inl ⟨n, h.keep _ n (mem_ptPath hw) hn⟩
  · refine .inr ?_
    rw [h.walk w hw hne (.inr hwalk)]
    exact hwalk

theorem Steady.trans (h : Steady cr3 v m m') (h' : Steady cr3 v m' m'') : Steady cr3 v m m'' where
  keep p n hp hn := h'.keep p n hp (h.keep p n hp hn)
  walk w hw hne ht := (h'.walk w hw hne (h.inTables hw hne ht)).trans (h.walk w hw hne ht)

/-- Memory that agrees on the tables. -/
theorem Unmoved.of_rows (h : PageTables m cr3) (hrows : ∀ n, IsTable m cr3 n → tables m' n = tables m n) :
    Unmoved cr3 m m' := by
  obtain ⟨htable, hwalk, hlarge⟩ := tablesIn_congr hrows
  refine ⟨⟨?_, h.tree.congr htable⟩, fun p n hp hn => (htable p hp).trans hn, hwalk, hlarge⟩
  rw [hrows _ (isTable_root _ m cr3)]
  exact h.selfMap

/-- The tables of `m'` are those of `m` but for entry `i` of table `n` and for frame `f`. -/
def SameBut (n : Nat) (i : Fin 512) (f : Nat) (m m' : Mem) : Prop :=
  ∀ b j, b ≠ f → b ≠ n ∨ j ≠ i → tables m' b j = tables m b j

/-- A walk does not come by an entry that is not present, or by a frame that is no table. -/
theorem SameBut.walkFrom {S : Fin 512 → Prop} {q rest : List (Fin 512)} {b : Nat} (h : SameBut n i f m m')
    (habs : present (tables m n i) = false) (hf : ¬IsTableIn S m cr3 f) (hq : Follows S q rest)
    (hb : tableAt m cr3 q = some b) (hwalk : walkFrom (tables m) b rest ≠ none) :
    walkFrom (tables m') b rest = walkFrom (tables m) b rest := by
  induction rest generalizing q b with
  | nil => rfl
  | cons j rest ih =>
    have hbf : b ≠ f := fun hc => hf ⟨q, hq.mem, hc ▸ hb⟩
    have hpres : present (tables m b j) = true := by
      by_contra hc
      exact hwalk (by rw [Paging.walkFrom, if_pos hc])
    have hsame : tables m' b j = tables m b j := by
      refine h b j hbf ?_
      by_contra hc
      push Not at hc
      obtain ⟨rfl, rfl⟩ := hc
      rw [habs] at hpres
      cases hpres
    rw [Paging.walkFrom] at hwalk ⊢
    rw [Paging.walkFrom, hsame]
    simp only [hpres, not_true_eq_false, if_false] at hwalk ⊢
    split_ifs with hrest hsize
    · rfl
    · rfl
    · rw [if_neg hrest, if_neg hsize] at hwalk
      refine ih hq.next ?_ hwalk
      rw [tableAt_concat, hb, Option.bind_some]
      exact link_eq_some.mpr ⟨hpres, by simpa using hsize, rfl⟩

/-- While a table is being linked behind an entry that was not present. -/
theorem SameBut.steady (h : SameBut n i f m m') (ht : PageTables m cr3) (hp : tablePaths.mem (p ++ [i]))
    (hn : tableAt m cr3 p = some n) (habs : present (tables m n i) = false) (hf : ¬IsTable m cr3 f) :
    Steady cr3 v m m' := by
  have hkeep : ∀ q k, tablePaths.mem q → tableAt m cr3 q = some k → tableAt m' cr3 q = some k := by
    intro q k hq hk
    refine (Tables.trail_congr fun r j b hr hb => ?_).2.trans hk
    have hr' : tablePaths.mem r := tablePaths.mem_of_prefix ((List.prefix_append r [j]).trans hr) hq
    refine h b j (fun hc => hf ⟨r, hr', hc ▸ hb⟩) ?_
    by_contra hc
    push Not at hc
    obtain ⟨rfl, rfl⟩ := hc
    obtain ⟨k', hk'⟩ := tableAt_of_isPrefix hk hr
    have hnone := tableAt_of_absent (show tableAt m cr3 r = some b from hb) habs
    rw [hnone] at hk'
    cases hk'
  refine ⟨hkeep, fun w hw _ hin => ?_⟩
  by_cases hc : canonical w = true
  · rcases hin with ⟨b, hb⟩ | hwalk
    · have hmem := mem_ptPath hw
      have hsame : tables m' b (index w 12) = tables m b (index w 12) := by
        refine h b _ (fun hbf => hf ⟨_, hmem, hbf ▸ hb⟩) (.inl ?_)
        -- a page table has three indices above it, the table that is edited at most two
        rintro rfl
        have hpath := ht.tree p _ b (tablePaths.init_mem p i hp) hmem hn hb
        have hlen := length_le_two hp
        rw [hpath] at hlen
        simp at hlen
      rw [walk_of_ptAt hc (hkeep _ b hmem hb), walk_of_ptAt hc hb, hsame]
    · rw [Paging.walk, if_pos hc] at hwalk ⊢
      rw [Paging.walk, if_pos hc]
      exact h.walkFrom habs hf (follows_indices hw) rfl hwalk
  · rw [Paging.walk, Paging.walk, if_neg hc, if_neg hc]

end Stays

/-! ## Single accesses -/

section Accesses

variable {cr3 v addr n f k e e' flags : Nat} {m m₀ : Mem} {p : List (Fin 512)} {i : Fin 512} {α : Type}
  {I : Mem → Prop} {Q : α → Mem → Prop}

/-- A load of an entry through the window. -/
theorem moments_read {g : Nat → EditM α} (hself : link (tables m (frameOf cr3) 511) = some (frameOf cr3))
    (hn : tableAt m cr3 p = some n) (ha : Shows addr p i) (hI : I m)
    (h : (g (tables m n i)).Moments (TableOp.step cr3) I Q m) :
    (readStep addr >>= g).Moments (TableOp.step cr3) I Q m := by
  have htr := ha.translate hself hn
  refine Prog.moments_perform hI ⟨_, m, _, htr, rfl, rfl⟩ ?_
  rintro x t ⟨a, ha', rfl, rfl⟩
  rw [htr] at ha'
  obtain rfl := Option.some.inj ha'
  exact h

/-- A store of an entry through the window. -/
theorem moments_write {g : Unit → EditM α} (hself : link (tables m (frameOf cr3) 511) = some (frameOf cr3))
    (hn : tableAt m cr3 p = some n) (ha : Shows addr p i) (he : e < 2 ^ 64) (hI : I m)
    (h : ∀ t, tables t = (tables m).set n i e → (g ()).Moments (TableOp.step cr3) I Q t) :
    (writeStep addr e >>= g).Moments (TableOp.step cr3) I Q m := by
  have htr := ha.translate hself hn
  refine Prog.moments_perform hI ⟨(), _, _, htr, rfl⟩ ?_
  rintro x t ⟨a, ha', rfl⟩
  rw [htr] at ha'
  obtain rfl := Option.some.inj ha'
  exact h _ (tables_store64 m n i he)

/-- The loop that zeroes a table. -/
theorem moments_zeroLoop (hself : link (tables m (frameOf cr3) 511) = some (frameOf cr3))
    (hroot : frameOf cr3 ≠ f) {slotAddr : Nat → Nat} (hslot : ∀ j : Fin 512, Shows (slotAddr j) (p ++ [i]) j)
    (hf : ∀ t, (∀ b j, b ≠ f → tables t b j = tables m b j) → tableAt t cr3 (p ++ [i]) = some f)
    (hI : ∀ t, (∀ b j, b ≠ f → tables t b j = tables m b j) → I t) :
    (Prog.loop 0 512 fun j => writeStep (slotAddr j) 0).Moments (TableOp.step cr3) I
      (fun _ t => tables t = (tables m).clear f 0) m := by
  have hloop : (Prog.loop 0 512 fun j => writeStep (slotAddr j) 0).Moments (TableOp.step cr3) I
      (fun _ t => ∀ b j, tables t b j = if b = f ∧ j.val < 512 then 0 else tables m b j) m := by
    refine Prog.moments_loop
      (fun c t => ∀ b j, tables t b j = if b = f ∧ j.val < c then 0 else tables m b j) 0 512
      (fun b j => by simp) (fun t ht => hI t fun b j hb => by rw [ht, if_neg fun hc => hb hc.1])
      fun c t _ hc ht => ?_
    have hoff : ∀ b j, b ≠ f → tables t b j = tables m b j := fun b j hb => by
      rw [ht, if_neg fun hc => hb hc.1]
    refine moments_write (g := pure) (by rw [hoff _ _ hroot, hself]) (hf t hoff) (hslot ⟨c, by omega⟩) (by decide)
      (hI t hoff) fun t' ht' => .ret (hI t' fun b j hb => ?_) fun b j => ?_
    · rw [ht', Tables.set_apply_of_ne (.inl hb), hoff b j hb]
    · rw [ht']
      by_cases hbj : b = f ∧ j = ⟨c, by omega⟩
      · obtain ⟨rfl, rfl⟩ := hbj
        rw [Tables.set_apply_self, if_pos ⟨rfl, by simp⟩]
      · have hbj' : b ≠ f ∨ j ≠ ⟨c, by omega⟩ := by
          by_contra hcc
          push Not at hcc
          exact hbj hcc
        rw [Tables.set_apply_of_ne hbj', ht]
        refine if_congr ?_ rfl rfl
        constructor
        · rintro ⟨rfl, hj⟩
          exact ⟨rfl, by omega⟩
        · rintro ⟨rfl, hj⟩
          refine ⟨rfl, ?_⟩
          have : j.val ≠ c := fun hjc => hbj ⟨rfl, Fin.ext hjc⟩
          omega
  refine hloop.mono (fun _ => id) fun _ t ht => ?_
  funext b j
  rw [ht, Tables.clear]
  simp [j.isLt]

/-- A new table behind an entry that is not present: linked, zeroed, and linked for good. -/
theorem moments_linkTable {entryAddr : Nat} (slotAddr : Nat → Nat) (h : PageTables m cr3)
    (hp : tablePaths.mem (p ++ [i])) (hn : tableAt m cr3 p = some n) (habs : present (tables m n i) = false)
    (hf : ¬IsTable m cr3 f) (he : link e = some f) (he' : link e' = some f) (hlt : e < 2 ^ 64)
    (hlt' : e' < 2 ^ 64) (hentry : Shows entryAddr p i) (hslot : ∀ j : Fin 512, Shows (slotAddr j) (p ++ [i]) j)
    (hs : Steady cr3 v m₀ m) : (linkTableSteps entryAddr e e' slotAddr).Moments (TableOp.step cr3)
      (Steady cr3 v m₀) (fun _ => HasTable cr3 (p ++ [i]) m) m := by
  have hp' := tablePaths.init_mem p i hp
  have hfn : n ≠ f := fun hc => hf ⟨p, hp', hc ▸ hn⟩
  have hroot : frameOf cr3 ≠ f := fun hc => hf (hc ▸ isTable_root _ m cr3)
  have hwin := ne_window h hp hn
  -- whatever the new table holds, only the entry that links to it has changed besides
  have hsteady : ∀ t, SameBut n i f m t → Steady cr3 v m₀ t := fun t ht => hs.trans (ht.steady h hp hn habs hf)
  have hself : ∀ t, SameBut n i f m t → link (tables t (frameOf cr3) 511) = some (frameOf cr3) := fun t ht => by
    rw [ht _ _ hroot hwin, h.selfMap]
  have hpath : ∀ t, SameBut n i f m t → tableAt t cr3 p = some n := fun t ht =>
    (ht.steady (v := v) h hp hn habs hf).keep p n hp' hn
  refine moments_write h.selfMap hn hentry hlt hs fun t₁ ht₁ => ?_
  have hsame₁ : SameBut n i f m t₁ := fun b j hb hbj => by rw [ht₁, Tables.set_apply_of_ne hbj]
  have hloop : ∀ t, (∀ b j, b ≠ f → tables t b j = tables t₁ b j) → SameBut n i f m t :=
    fun t ht b j hb hbj => (ht b j hb).trans (hsame₁ b j hb hbj)
  refine Prog.Moments.bind ((moments_zeroLoop (f := f) (p := p) (i := i) (hself t₁ hsame₁) hroot hslot
    (fun t ht => ?_) fun t ht => hsteady t (hloop t ht)).mono (fun _ => id) fun _ t₂ ht₂ => ?_)
  · rw [tableAt_concat, hpath t (hloop t ht), Option.bind_some, ht _ _ hfn, ht₁, Tables.set_apply_self, he]
  · have hsame₂ : SameBut n i f m t₂ := hloop t₂ fun b j hb => by rw [ht₂, Tables.clear_apply_of_ne hb]
    refine moments_write (g := pure) (hself t₂ hsame₂) (hpath t₂ hsame₂) hentry hlt' (hsteady t₂ hsame₂) fun t₃ ht₃ => ?_
    have htab : tables t₃ = ((tables m).clear f 0).set n i e' := by
      rw [ht₃, ht₂, ht₁, Tables.clear_set hfn, Tables.set_set]
    obtain ⟨hgrown, htable⟩ := Grown.of_fresh h hp hn habs he' hf htab
    exact .ret (hs.trans hgrown.unmoved.steady) ⟨hgrown.unmoved, f, htable⟩

/-- An entry that links to a table keeps its link. -/
theorem moments_relink {g : Unit → EditM α} (h : PageTables m cr3) (hp : tablePaths.mem (p ++ [i]))
    (hk : tableAt m cr3 (p ++ [i]) = some k) (ha : Shows addr p i) (he : link e = some k) (hlt : e < 2 ^ 64)
    (hs : Steady cr3 v m₀ m)
    (hg : ∀ n t, tableAt m cr3 p = some n → tables t = (tables m).set n i e → Grown cr3 m t [] →
      (g ()).Moments (TableOp.step cr3) (Steady cr3 v m₀) Q t) :
    (writeStep addr e >>= g).Moments (TableOp.step cr3) (Steady cr3 v m₀) Q m := by
  obtain ⟨n, hn⟩ := tableAt_of_isPrefix hk (List.prefix_append p [i])
  have hl := link_of_table hn hk
  refine moments_write h.selfMap hn ha hlt hs fun t ht => ?_
  exact hg n t hn ht (Grown.of_link_edit h hp hn (by simp [hl]) (he.trans hl.symm) ht)

/-- The entry above a table gets attribute bits. -/
theorem moments_or {g : Unit → EditM α} (h : PageTables m cr3) (hp : tablePaths.mem (p ++ [i]))
    (hk : tableAt m cr3 (p ++ [i]) = some k) (ha : Shows addr p i) (hflags : AttributeBits flags)
    (hs : Steady cr3 v m₀ m)
    (hg : ∀ n t, tableAt m cr3 p = some n → (∀ b j, b ≠ n → tables t b j = tables m b j) → Grown cr3 m t [] →
      (g ()).Moments (TableOp.step cr3) (Steady cr3 v m₀) Q t) :
    (orSteps addr flags >>= g).Moments (TableOp.step cr3) (Steady cr3 v m₀) Q m := by
  obtain ⟨n, hn⟩ := tableAt_of_isPrefix hk (List.prefix_append p [i])
  have hl := link_of_table hn hk
  refine Prog.Moments.bind (moments_read h.selfMap hn ha hs ?_)
  refine moments_relink (g := pure) h hp hk ha ?_ (Nat.or_lt_two_pow (tables_lt _ _ _) hflags.lt) hs
    fun n' t hn' ht hm => ?_
  · rw [hflags.link_or (link_eq_some.mp hl).1, hl]
  · have hmom := hg n' t hn' (fun b j hb => by rw [ht, Tables.set_apply_of_ne (.inl hb)]) hm
    exact .ret hmom.now hmom

/-- `alloc_phys_pages` has no frame, or one that is no table and may hold anything. -/
theorem moments_alloc {g : Nat → EditM α} (h : PageTables m cr3) (hs : Steady cr3 v m₀ m)
    (hnone : (g 0).Moments (TableOp.step cr3) (Steady cr3 v m₀) Q m)
    (hg : ∀ a t, GoodFrame t cr3 a → (∀ b, IsTable m cr3 b → tables t b = tables m b) → Unmoved cr3 m t →
      (g a).Moments (TableOp.step cr3) (Steady cr3 v m₀) Q t) :
    (allocStep >>= g).Moments (TableOp.step cr3) (Steady cr3 v m₀) Q m := by
  refine Prog.moments_perform hs ⟨0, m, .inl ⟨rfl, rfl⟩⟩ ?_
  rintro a t (⟨rfl, rfl⟩ | ⟨hgood, hrows⟩)
  · exact hnone
  · have hsame : ∀ b, IsTable m cr3 b → tables t b = tables m b := fun b hb =>
      hrows b fun hc => hgood.notTable (hc ▸ hb)
    have hm := Unmoved.of_rows h hsame
    refine hg a t ⟨hgood.toFrameAddr, hgood.nonzero, fun ht => ?_⟩ hsame hm
    obtain ⟨q, hq, hqa⟩ := ht
    rw [(tablesIn_congr hsame).1 q hq] at hqa
    exact hgood.notTable ⟨q, hq, hqa⟩

end Accesses

/-! ## The parts of `map_page` -/

section Parts

variable {cr3 v n₃ n₂ n₁ flags : Nat} {m m₀ : Mem} {p : List (Fin 512)} {i : Fin 512}

/-- Without large pages, a present upper entry leads to a table. -/
theorem NoLargePage.table {n : Nat} (hl : NoLargePage m cr3 v) (hu : UpperOf v p i) (hn : tableAt m cr3 p = some n)
    (hpres : present (tables m n i) = true) : ∃ k, tableAt m cr3 (p ++ [i]) = some k := by
  refine ⟨frameOf (tables m n i), ?_⟩
  rw [tableAt_concat, hn, Option.bind_some]
  exact link_eq_some.mpr ⟨hpres, hl p i hu _ (entries_of_tableAt hn i) hpres, rfl⟩

/-- A walk from the table at a path goes on in a table where no large page is. -/
theorem NoLargePage.walk_next {n : Nat} {rest : List (Fin 512)} {leaf : Nat × Nat} (hl : NoLargePage m cr3 v)
    (hu : UpperOf v p i) (hn : tableAt m cr3 p = some n) (hrest : rest ≠ [])
    (hwalk : walkFrom (tables m) n (i :: rest) = some leaf) :
    ∃ k, tableAt m cr3 (p ++ [i]) = some k ∧ walkFrom (tables m) k rest = some leaf := by
  rcases walkFrom_step hrest hwalk with ⟨k, hk, hnext⟩ | ⟨⟨hpres, hsize⟩, -⟩
  · refine ⟨k, ?_, hnext⟩
    rw [tableAt_concat, hn, Option.bind_some, hk]
  · rw [hl p i hu _ (entries_of_tableAt hn i) hpres] at hsize
    cases hsize

/-- A page in the tables that is in no large page has a page table. -/
theorem InTables.table (hin : InTables m cr3 v) (hl : NoLargePage m cr3 v) : ∃ n, ptAt m cr3 v = some n := by
  rcases hin with hn | hwalk
  · exact hn
  · obtain ⟨leaf, hleaf⟩ := Option.ne_none_iff_exists'.mp hwalk
    unfold walk indices at hleaf
    split_ifs at hleaf
    obtain ⟨n₃, hn₃, hleaf⟩ := hl.walk_next .pml4 (n := frameOf cr3) rfl (by simp) hleaf
    obtain ⟨n₂, hn₂, hleaf⟩ := hl.walk_next .pdpt hn₃ (by simp) hleaf
    obtain ⟨n₁, hn₁, -⟩ := hl.walk_next .pd hn₂ (by simp) hleaf
    exact ⟨n₁, hn₁⟩

/-- Giving the flags to the entry above a table. -/
theorem moments_flags {addr : Nat} (h : PageTables m cr3) (hp : tablePaths.mem (p ++ [i]))
    (hk : ∃ k, tableAt m cr3 (p ++ [i]) = some k) (ha : Shows addr p i) (hflags : AttributeBits flags)
    (hs : Steady cr3 v m₀ m) : (orSteps addr flags).Moments (TableOp.step cr3) (Steady cr3 v m₀)
      (fun _ => HasTable cr3 (p ++ [i]) m) m := by
  obtain ⟨k, hk⟩ := hk
  have hor := moments_or (g := pure) (Q := fun _ => HasTable cr3 (p ++ [i]) m) h hp hk ha hflags hs
    fun _ t _ _ hm => .ret (hs.trans hm.unmoved.steady) ⟨hm.unmoved, k, hm.keep _ k hp hk⟩
  exact hor

/-- The PDPT part. -/
theorem mapPagePdpt_moments (h : PageTables m cr3) (hv : UserPage v) (hl : NoLargePage m cr3 v)
    (hflags : AttributeBits flags) (hs : Steady cr3 v m₀ m) :
    (mapPagePdptSteps v flags).Moments (TableOp.step cr3) (Steady cr3 v m₀)
      (fun _ => HasTable cr3 [index v 39] m) m := by
  have hp : tablePaths.mem ([] ++ [index v 39]) := (UpperOf.pml4.mem hv.slot).2
  have hroot : tableAt m cr3 [] = some (frameOf cr3) := rfl
  unfold mapPagePdptSteps
  refine moments_read h.selfMap hroot (shows_pml4e v) hs (Prog.moments_ite (fun hpres => ?_) fun habs => ?_)
  · exact moments_flags (p := []) h hp (hl.table .pml4 hroot hpres) (shows_pml4e v) hflags hs
  · refine moments_alloc h hs (Prog.moments_ite (fun hc => absurd rfl hc) fun _ => .stop hs)
      fun a t hgood hrows hm => Prog.moments_ite (fun _ => ?_) fun _ => ?_
    · have habs' : present (tables t (frameOf cr3) (index v 39)) = false := by
        rw [hrows _ (isTable_root _ m cr3)]
        simpa using habs
      obtain ⟨hlink, hlt⟩ := link_frame_attributes hgood.toFrameAddr hflags
      obtain ⟨hlinkRw, hltRw⟩ := link_frame_flags hgood.toFrameAddr flagsOk_readWrite
      have hnew := moments_linkTable (p := [])
        (fun j => pdpteAddrOf (wrap ((v &&& 0xFFFFFF8000000000) + 0x40000000 * j))) hm.pageTables hp rfl habs'
        hgood.notTable hlinkRw hlink hltRw hlt (shows_pml4e v) (shows_pdptSlot v) (hs.trans hm.steady)
      exact hnew.mono (fun _ => id) fun _ u hu => ⟨hm.trans hu.toUnmoved, hu.table⟩
    · exact .stop (hs.trans hm.steady)

/-- The PD part, below a PDPT. -/
theorem mapPagePd_moments (h : PageTables m cr3) (hv : UserPage v) (hl : NoLargePage m cr3 v)
    (hflags : AttributeBits flags) (hn₃ : tableAt m cr3 [index v 39] = some n₃) (hs : Steady cr3 v m₀ m) :
    (mapPagePdSteps v flags).Moments (TableOp.step cr3) (Steady cr3 v m₀)
      (fun _ => HasTable cr3 [index v 39, index v 30] m) m := by
  have hp : tablePaths.mem ([index v 39] ++ [index v 30]) := (UpperOf.pdpt.mem hv.slot).2
  have hp₄ : tablePaths.mem ([] ++ [index v 39]) := (UpperOf.pml4.mem hv.slot).2
  have hroot : tableAt m cr3 [] = some (frameOf cr3) := rfl
  unfold mapPagePdSteps
  refine moments_read h.selfMap hn₃ (shows_pdpte v) hs (Prog.moments_ite (fun hpres => ?_) fun habs => ?_)
  · exact moments_flags (p := [index v 39]) h hp (hl.table .pdpt hn₃ hpres) (shows_pdpte v) hflags hs
  · refine moments_alloc h hs (Prog.moments_ite (fun hc => absurd rfl hc) fun _ => .stop hs)
      fun a t hgood hrows hm => Prog.moments_ite (fun _ => ?_) fun _ => ?_
    · have hn₃' := hm.keep _ _ hp₄ hn₃
      have hne : n₃ ≠ frameOf cr3 := h.table_ne hp₄ tablePaths.nil_mem hn₃ hroot (by simp)
      obtain ⟨hlink, hlt⟩ := link_frame_attributes hgood.toFrameAddr hflags
      obtain ⟨hlinkRw, hltRw⟩ := link_frame_flags hgood.toFrameAddr flagsOk_readWrite
      have hs₁ := hs.trans hm.steady
      -- the PML4 entry is writable while the PD is linked
      refine moments_read hm.pageTables.selfMap (p := []) rfl (shows_pml4e v) hs₁ ?_
      refine moments_or (p := []) hm.pageTables hp₄ hn₃' (shows_pml4e v) flagsOk_readWrite.attributeBits hs₁
        fun n t₁ hn hrows₁ hm₁ => ?_
      obtain rfl := Option.some.inj hn
      have habs' : present (tables t₁ n₃ (index v 30)) = false := by
        rw [hrows₁ _ _ hne, hrows n₃ ⟨_, hp₄, hn₃⟩]
        simpa using habs
      have hnot : ¬IsTable t₁ cr3 (a / 4096) := fun hc => (hm₁.reach _ hc).elim hgood.notTable (by simp)
      have hnew := moments_linkTable
        (fun j => pdeAddrOf (wrap ((v &&& 0xFFFFFFFFC0000000) + 0x200000 * j))) hm₁.pageTables hp
        (hm₁.keep _ _ hp₄ hn₃') habs' hnot hlinkRw hlink hltRw hlt (shows_pdpte v) (shows_pdSlot v) (hs₁.trans hm₁.unmoved.steady)
      refine Prog.Moments.bind (hnew.mono (fun _ => id) fun _ u hu => ?_)
      obtain ⟨hu, _, hk⟩ := hu
      have hm₂ := hm₁.unmoved.trans hu
      refine moments_relink (g := pure) (p := []) hu.pageTables hp₄ (hm₂.keep _ _ hp₄ hn₃') (shows_pml4e v)
        (link_of_table (p := []) rfl hn₃') (tables_lt _ _ _) (hs₁.trans hm₂.steady) fun _ w _ _ hw => ?_
      have hm₃ := hm.trans (hm₂.trans hw.unmoved)
      exact .ret (hs.trans hm₃.steady) ⟨hm₃, _, hw.keep _ _ hp hk⟩
    · exact .stop (hs.trans hm.steady)

/-- The PT part, below a PD. -/
theorem mapPagePt_moments (h : PageTables m cr3) (hv : UserPage v) (hl : NoLargePage m cr3 v)
    (hflags : AttributeBits flags) (hn₃ : tableAt m cr3 [index v 39] = some n₃)
    (hn₂ : tableAt m cr3 [index v 39, index v 30] = some n₂) (hs : Steady cr3 v m₀ m) :
    (mapPagePtSteps v flags).Moments (TableOp.step cr3) (Steady cr3 v m₀)
      (fun _ => HasTable cr3 [index v 39, index v 30, index v 21] m) m := by
  have hp : tablePaths.mem ([index v 39, index v 30] ++ [index v 21]) := (UpperOf.pd.mem hv.slot).2
  have hp₃ : tablePaths.mem ([index v 39] ++ [index v 30]) := (UpperOf.pdpt.mem hv.slot).2
  have hp₄ : tablePaths.mem ([] ++ [index v 39]) := (UpperOf.pml4.mem hv.slot).2
  have hroot : tableAt m cr3 [] = some (frameOf cr3) := rfl
  unfold mapPagePtSteps
  refine moments_read h.selfMap hn₂ (shows_pde v) hs (Prog.moments_ite (fun hpres => ?_) fun habs => ?_)
  · exact moments_flags (p := [index v 39, index v 30]) h hp (hl.table .pd hn₂ hpres) (shows_pde v) hflags hs
  · refine moments_alloc h hs (Prog.moments_ite (fun hc => absurd rfl hc) fun _ => .stop hs)
      fun a t hgood hrows hm => Prog.moments_ite (fun _ => ?_) fun _ => ?_
    · have hn₃' := hm.keep _ _ hp₄ hn₃
      have hn₂' := hm.keep _ _ hp₃ hn₂
      have hne₂ : n₂ ≠ frameOf cr3 := h.table_ne hp₃ tablePaths.nil_mem hn₂ hroot (by simp)
      have hne₂₃ : n₂ ≠ n₃ := h.table_ne hp₃ hp₄ hn₂ hn₃ (by simp)
      obtain ⟨hlink, hlt⟩ := link_frame_attributes hgood.toFrameAddr hflags
      obtain ⟨hlinkRw, hltRw⟩ := link_frame_flags hgood.toFrameAddr flagsOk_readWrite
      have hlinkRwFlags : link (a ||| pagingFlagPresent ||| pagingFlagReadWrite ||| flags) = some (a / 4096) := by
        rw [hflags.link_or (link_eq_some.mp hlinkRw).1, hlinkRw]
      have hs₁ := hs.trans hm.steady
      -- the PML4 and PDPT entries are writable while the PT is linked
      refine moments_read hm.pageTables.selfMap (p := []) rfl (shows_pml4e v) hs₁ ?_
      refine moments_or (p := []) hm.pageTables hp₄ hn₃' (shows_pml4e v) flagsOk_readWrite.attributeBits hs₁
        fun n t₁ hn hrows₁ hm₁ => ?_
      obtain rfl := Option.some.inj hn
      have hs₂ := hs₁.trans (v := v) hm₁.unmoved.steady
      have hn₃₁ := hm₁.keep _ _ hp₄ hn₃'
      have hn₂₁ := hm₁.keep _ _ hp₃ hn₂'
      refine moments_read hm₁.pageTables.selfMap hn₃₁ (shows_pdpte v) hs₂ ?_
      refine moments_or (p := [index v 39]) hm₁.pageTables hp₃ hn₂₁ (shows_pdpte v) flagsOk_readWrite.attributeBits hs₂
        fun n t₂ hn hrows₂ hm₂ => ?_
      obtain rfl := Option.some.inj (hn₃₁.symm.trans hn)
      have habs' : present (tables t₂ n₂ (index v 21)) = false := by
        rw [hrows₂ _ _ hne₂₃, hrows₁ _ _ hne₂, hrows n₂ ⟨_, hp₃, hn₂⟩]
        simpa using habs
      have hm₁₂ := hm₁.trans hm₂
      have hnot : ¬IsTable t₂ cr3 (a / 4096) := fun hc => (hm₁₂.reach _ hc).elim hgood.notTable (by simp)
      have hnew := moments_linkTable
        (fun j => pteAddrOf (wrap ((v &&& 0xFFFFFFFFFFE00000) + 0x1000 * j))) hm₂.pageTables hp
        (hm₁₂.keep _ _ hp₃ hn₂') habs' hnot hlinkRwFlags hlink (Nat.or_lt_two_pow hltRw hflags.lt) hlt
        (shows_pde v) (shows_ptSlot v) (hs₁.trans hm₁₂.unmoved.steady)
      refine Prog.Moments.bind (hnew.mono (fun _ => id) fun _ u hu => ?_)
      obtain ⟨hu, _, hk⟩ := hu
      -- the two entries get back what they were, in reverse order
      have hu' := hm₁₂.unmoved.trans hu
      refine moments_relink (p := [index v 39]) hu.pageTables hp₃ (hu'.keep _ _ hp₃ hn₂') (shows_pdpte v)
        (link_of_table hn₃₁ hn₂₁) (tables_lt _ _ _) (hs₁.trans hu'.steady) fun _ w _ _ hw => ?_
      have hw' := hu'.trans hw.unmoved
      refine moments_relink (g := pure) (p := []) hw.pageTables hp₄ (hw'.keep _ _ hp₄ hn₃') (shows_pml4e v)
        (link_of_table (p := []) rfl hn₃') (tables_lt _ _ _) (hs₁.trans hw'.steady) fun _ x _ _ hx => ?_
      have hx' := hm.trans (hw'.trans hx.unmoved)
      exact .ret (hs.trans hx'.steady) ⟨hx', _, hx.keep _ _ hp (hw.keep _ _ hp hk)⟩
    · exact .stop (hs.trans hm.steady)

end Parts

/-! ## `map_page` and `unmap_page` -/

/-- The leaf entry of page `v` has become `pte`; all other walks are what they were. -/
structure PageEdited (cr3 v pte : Nat) (m m' : Mem) : Prop where
  pageTables : PageTables m' cr3
  keep : ∀ p n, tablePaths.mem p → tableAt m cr3 p = some n → tableAt m' cr3 p = some n
  table : ∃ n, ptAt m' cr3 v = some n
  self : ∀ w, w / 4096 = v / 4096 → walk m' cr3 w = if present pte then some (pte, 12) else none
  others : ∀ w, index w 39 ≠ 511 → w / 4096 ≠ v / 4096 → walk m' cr3 w = walk m cr3 w
  noLarge : ∀ w, index w 39 ≠ 511 → NoLargePage m cr3 w → NoLargePage m' cr3 w

section Edits

variable {cr3 v p flags pte n₁ : Nat} {m m₀ m' m'' : Mem}

theorem PageEdited.after (h : Unmoved cr3 m m') (h' : PageEdited cr3 v pte m' m'') : PageEdited cr3 v pte m m'' where
  pageTables := h'.pageTables
  keep p n hp hn := h'.keep p n hp (h.keep p n hp hn)
  table := h'.table
  self := h'.self
  others w hw hne := (h'.others w hw hne).trans (h.walk w hw)
  noLarge w hw hl := h'.noLarge w hw (h.noLarge w hw hl)

theorem PageEdited.before (h : PageEdited cr3 v pte m m') (hv : UserPage v) (h' : Unmoved cr3 m' m'') :
    PageEdited cr3 v pte m m'' where
  pageTables := h'.pageTables
  keep p n hp hn := h'.keep p n hp (h.keep p n hp hn)
  table := by
    obtain ⟨n, hn⟩ := h.table
    exact ⟨n, h'.keep _ n (mem_ptPath hv.slot) hn⟩
  self w hw := by
    have hslot : index w 39 ≠ 511 := by
      rw [index_of_same_page hw (by decide)]
      exact hv.slot
    rw [h'.walk w hslot, h.self w hw]
  others w hw hne := (h'.walk w hw).trans (h.others w hw hne)
  noLarge w hw hl := h'.noLarge w hw (h.noLarge w hw hl)

theorem PageEdited.steady (h : PageEdited cr3 v pte m m') : Steady cr3 v m m' :=
  ⟨h.keep, fun w hw hne _ => h.others w hw hne⟩

/-- A store of the leaf entry. -/
theorem PageEdited.of_leaf (h : PageTables m cr3) (hv : UserPage v) (hn₁ : ptAt m cr3 v = some n₁)
    (hm : tables m' = (tables m).set n₁ (index v 12) pte) : PageEdited cr3 v pte m m' := by
  obtain ⟨hpt, htab, hwalk, hlarge, -⟩ := walk_set_leaf h hv.slot hn₁ hm
  have hn₁' : ptAt m' cr3 v = some n₁ := (htab _ (mem_ptPath hv.slot)).trans hn₁
  refine ⟨hpt, fun p n hp hn => (htab p hp).trans hn, ⟨n₁, hn₁'⟩, fun w hw => ?_,
    fun w hw hne => hwalk w hw hne hv.canonical, hlarge⟩
  have hc : canonical w = true := by rw [canonical_of_same_page hw, hv.canonical]
  have hidx : ∀ k, 12 ≤ k → index w k = index v k := fun k hk => index_of_same_page hw hk
  have hnw : ptAt m' cr3 w = some n₁ := by
    rw [Paging.ptAt, hidx 39 (by decide), hidx 30 (by decide), hidx 21 (by decide)]
    exact hn₁'
  rw [walk_of_ptAt hc hnw, hidx 12 le_rfl, hm, Tables.set_apply_self]

/-- The leaf entry, with the three entries above it writable meanwhile. -/
theorem writePte_moments (h : PageTables m cr3) (hv : UserPage v) (hn₁ : ptAt m cr3 v = some n₁)
    (he : pte < 2 ^ 64) (hs : Steady cr3 v m₀ m) :
    (writePteSteps v pte).Moments (TableOp.step cr3) (Steady cr3 v m₀) (fun _ => PageEdited cr3 v pte m) m := by
  have hp₂ : tablePaths.mem ([index v 39, index v 30] ++ [index v 21]) := (UpperOf.pd.mem hv.slot).2
  have hp₃ : tablePaths.mem ([index v 39] ++ [index v 30]) := (UpperOf.pdpt.mem hv.slot).2
  have hp₄ : tablePaths.mem ([] ++ [index v 39]) := (UpperOf.pml4.mem hv.slot).2
  obtain ⟨n₃, hn₃⟩ := tableAt_of_isPrefix hn₁ (show [index v 39] <+: _ from ⟨[index v 30, index v 21], rfl⟩)
  obtain ⟨n₂, hn₂⟩ := tableAt_of_isPrefix hn₁ (show [index v 39, index v 30] <+: _ from ⟨[index v 21], rfl⟩)
  unfold writePteSteps
  -- the three upper entries become writable
  refine moments_read h.selfMap (p := []) rfl (shows_pml4e v) hs ?_
  refine moments_or (p := []) h hp₄ hn₃ (shows_pml4e v) flagsOk_readWrite.attributeBits hs fun _ t₁ _ _ hm₁ => ?_
  have hs₁ := hs.trans (v := v) hm₁.unmoved.steady
  have hn₃₁ := hm₁.keep _ _ hp₄ hn₃
  have hn₂₁ := hm₁.keep _ _ hp₃ hn₂
  refine moments_read hm₁.pageTables.selfMap hn₃₁ (shows_pdpte v) hs₁ ?_
  refine moments_or (p := [index v 39]) hm₁.pageTables hp₃ hn₂₁ (shows_pdpte v) flagsOk_readWrite.attributeBits hs₁
    fun _ t₂ _ _ hm₂ => ?_
  have hm₁₂ := hm₁.unmoved.trans hm₂.unmoved
  have hs₂ := hs.trans (v := v) hm₁₂.steady
  have hn₂₂ := hm₁₂.keep _ _ hp₃ hn₂
  have hn₁₂ := hm₁₂.keep _ _ hp₂ hn₁
  refine moments_read hm₂.pageTables.selfMap hn₂₂ (shows_pde v) hs₂ ?_
  refine moments_or (p := [index v 39, index v 30]) hm₂.pageTables hp₂ hn₁₂ (shows_pde v)
    flagsOk_readWrite.attributeBits hs₂ fun _ t₃ _ _ hm₃ => ?_
  have hm₁₃ := hm₁₂.trans hm₃.unmoved
  have hn₁₃ := hm₁₃.keep _ _ hp₂ hn₁
  -- the leaf entry
  refine moments_write hm₃.pageTables.selfMap hn₁₃ (shows_pte v) he (hs.trans hm₁₃.steady) fun t₄ ht₄ => ?_
  have he₄ := PageEdited.after hm₁₃ (PageEdited.of_leaf hm₃.pageTables hv hn₁₃ ht₄)
  -- the three upper entries get back what they were, in reverse order
  refine moments_relink (p := [index v 39, index v 30]) he₄.pageTables hp₂ (he₄.keep _ _ hp₂ hn₁) (shows_pde v)
    (link_of_table hn₂₂ hn₁₂) (tables_lt _ _ _) (hs.trans he₄.steady) fun _ t₅ _ _ hm₅ => ?_
  have he₅ := he₄.before hv hm₅.unmoved
  refine moments_relink (p := [index v 39]) he₅.pageTables hp₃ (he₅.keep _ _ hp₃ hn₂) (shows_pdpte v)
    (link_of_table hn₃₁ hn₂₁) (tables_lt _ _ _) (hs.trans he₅.steady) fun _ t₆ _ _ hm₆ => ?_
  have he₆ := he₅.before hv hm₆.unmoved
  refine moments_relink (g := pure) (p := []) he₆.pageTables hp₄ (he₆.keep _ _ hp₄ hn₃) (shows_pml4e v)
    (link_of_table (p := []) rfl hn₃) (tables_lt _ _ _) (hs.trans he₆.steady) fun _ t₇ _ _ hm₇ => ?_
  have he₇ := he₆.before hv hm₇.unmoved
  exact .ret (hs.trans he₇.steady) he₇

/-- **`map_page`, moment by moment.** No access faults, at every moment the other pages are what they were,
and at the end the page is mapped. -/
theorem mapPage_moments (h : PageTables m cr3) (hv : UserPage v) (hl : NoLargePage m cr3 v) (hp : p < 2 ^ 64)
    (hflags : AttributeBits flags) :
    (mapPageSteps v p flags).Moments (TableOp.step cr3) (Steady cr3 v m)
      (fun _ => PageEdited cr3 v (p ||| pagingFlagPresent ||| flags) m) m := by
  have hp₃ : tablePaths.mem [index v 39, index v 30] := (UpperOf.pdpt.mem hv.slot).2
  have hp₄ : tablePaths.mem [index v 39] := (UpperOf.pml4.mem hv.slot).2
  unfold mapPageSteps
  refine Prog.Moments.bind ((mapPagePdpt_moments h hv hl hflags .refl).mono (fun _ => id) fun _ t₁ ht₁ => ?_)
  obtain ⟨hm₁, n₃, hn₃⟩ := ht₁
  have hl₁ := hm₁.noLarge v hv.slot hl
  refine Prog.Moments.bind ((mapPagePd_moments hm₁.pageTables hv hl₁ hflags hn₃ hm₁.steady).mono (fun _ => id)
    fun _ t₂ ht₂ => ?_)
  obtain ⟨hm₂, n₂, hn₂⟩ := ht₂
  have hm₁₂ := hm₁.trans hm₂
  have hl₂ := hm₂.noLarge v hv.slot hl₁
  refine Prog.Moments.bind ((mapPagePt_moments hm₂.pageTables hv hl₂ hflags (hm₂.keep _ _ hp₄ hn₃) hn₂
    hm₁₂.steady).mono (fun _ => id) fun _ t₃ ht₃ => ?_)
  obtain ⟨hm₃, n₁, hn₁⟩ := ht₃
  have hm₁₃ := hm₁₂.trans hm₃
  have hlt := Nat.or_lt_two_pow (or_lt (b := pagingFlagPresent) hp (by decide)) hflags.lt
  exact (writePte_moments hm₃.pageTables hv hn₁ hlt hm₁₃.steady).mono (fun _ => id)
    fun _ _ he => .after hm₁₃ he

/-- **`unmap_page`, moment by moment.** -/
theorem unmapPage_moments (h : PageTables m cr3) (hv : UserPage v) (hn₁ : ptAt m cr3 v = some n₁) :
    (unmapPageSteps v).Moments (TableOp.step cr3) (Steady cr3 v m) (fun _ => PageEdited cr3 v 0 m) m :=
  writePte_moments h hv hn₁ (by decide) .refl

end Edits

end KoalemOS.Paging
