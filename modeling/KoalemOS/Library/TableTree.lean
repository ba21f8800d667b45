import Mathlib.Data.List.Induction
import Mathlib.Tactic.Common

/-!
# Trees of tables in a flat store

A store holds tables, arrays of entries that are indexed by labels; an entry may
link to another table. From a root, a path of labels leads to a table (`descend`) and
to an entry of it (`entryAt`), by the entries of its `trail`. The store is a tree when no
two paths of interest lead to the same table (`IsTree`). Under this condition one store to
one entry has an exact effect on what every path finds:

- an edit that keeps the link changes one entry (`entryAt_set_link`)
- an edit of an entry whose link no path of interest follows changes one entry
  (`entryAt_set_leaf`)
- linking an unreachable table without links of its own adds that table
  (`entryAt_set_fresh`)
- tables no path reaches do not matter (`descend_congr_of_reached`)
-/

namespace KoalemOS.Library

/-- Tables `N` of entries `E` indexed by labels `I`. -/
abbrev Tables (N I E : Type) := N → I → E

/-- A set of paths that contains the prefixes of its members. -/
structure PathSet (I : Type) where
  mem : List I → Prop
  nil_mem : mem []
  init_mem : ∀ p i, mem (p ++ [i]) → mem p

theorem PathSet.mem_of_prefix {I : Type} (A : PathSet I) {p q : List I} (h : q <+: p) (hp : A.mem p) :
    A.mem q := by
  obtain ⟨r, rfl⟩ := h
  induction r using List.reverseRecOn with
  | nil => rwa [List.append_nil] at hp
  | append_singleton r i ih =>
    rw [← List.append_assoc] at hp
    exact ih (A.init_mem _ i hp)

namespace Tables

variable {N I E : Type} (link : E → Option N)

/-- Follow the links along a path. -/
def descend (T : Tables N I E) : N → List I → Option N
  | n, [] => some n
  | n, i :: p => (link (T n i)).bind fun n' => descend T n' p

/-- The entry with label `i` of the table a path leads to. -/
def entryAt (T : Tables N I E) (root : N) (p : List I) (i : I) : Option E :=
  (descend link T root p).map fun n => T n i

/-- No two paths of interest lead to the same table. -/
def IsTree (A : PathSet I) (T : Tables N I E) (root : N) : Prop :=
  ∀ p q n, A.mem p → A.mem q → descend link T root p = some n →
    descend link T root q = some n → p = q

/-- No path of interest leads to table `f`. -/
def Unreached (A : PathSet I) (T : Tables N I E) (root f : N) : Prop :=
  ∀ p, A.mem p → descend link T root p ≠ some f

variable {link} {A : PathSet I} {T T' : Tables N I E} {root n f : N} {p q : List I} {i j : I} {e : E}

/-! ## Paths -/

@[simp] theorem descend_nil : descend link T root [] = some root := rfl

theorem descend_append (p q : List I) :
    descend link T root (p ++ q) = (descend link T root p).bind fun n => descend link T n q := by
  induction p generalizing root with
  | nil => rfl
  | cons i p ih =>
    simp only [List.cons_append, descend, Option.bind_assoc]
    cases link (T root i) with
    | none => rfl
    | some n => exact ih

theorem descend_concat (p : List I) (i : I) :
    descend link T root (p ++ [i]) = (descend link T root p).bind fun n => link (T n i) := by
  rw [descend_append]
  congr 1
  funext n
  simp only [descend]
  cases link (T n i) <;> rfl

/-- The entries that are read when the links along a path are followed. -/
def trail (link : E → Option N) (T : Tables N I E) : N → List I → List E
  | _, [] => []
  | n, i :: p => T n i :: match link (T n i) with
    | some n' => trail link T n' p
    | none => []

theorem trail_cons_of_link {n' : N} (h : link (T n i) = some n') (p : List I) :
    trail link T n (i :: p) = T n i :: trail link T n' p := by
  rw [trail, h]

/-- A path that leads to a table adds the entry that is read there. -/
theorem trail_concat (h : descend link T root p = some n) (i : I) :
    trail link T root (p ++ [i]) = trail link T root p ++ [T n i] := by
  induction p generalizing root with
  | nil =>
    obtain rfl : root = n := Option.some.inj h
    cases hl : link (T root i) <;> simp [trail, hl]
  | cons j p ih =>
    rw [descend, Option.bind_eq_some_iff] at h
    obtain ⟨n', hl, hn⟩ := h
    rw [List.cons_append, trail_cons_of_link hl, trail_cons_of_link hl, ih hn, List.cons_append]

/-- No entry is read behind one without a link. -/
theorem trail_append_of_unlinked (h : descend link T root p = some n) (hl : link (T n i) = none)
    (r : List I) : trail link T root (p ++ i :: r) = trail link T root p ++ [T n i] := by
  induction p generalizing root with
  | nil =>
    obtain rfl : root = n := Option.some.inj h
    simp [trail, hl]
  | cons j p ih =>
    rw [descend, Option.bind_eq_some_iff] at h
    obtain ⟨n', hl', hn⟩ := h
    rw [List.cons_append, trail_cons_of_link hl', trail_cons_of_link hl', ih hn, List.cons_append]

/-- The trail of a path is the entries at its prefixes. -/
theorem mem_trail {x : E} :
    x ∈ trail link T root p ↔ ∃ q j, q ++ [j] <+: p ∧ entryAt link T root q j = some x := by
  induction p generalizing root with
  | nil => simp [trail]
  | cons i p ih =>
    constructor
    · intro hx
      cases hl : link (T root i) with
      | none =>
        obtain rfl : x = T root i := by simpa [trail, hl] using hx
        exact ⟨[], i, ⟨p, rfl⟩, rfl⟩
      | some n' =>
        rw [trail_cons_of_link hl, List.mem_cons] at hx
        rcases hx with rfl | hx
        · exact ⟨[], i, ⟨p, rfl⟩, rfl⟩
        · obtain ⟨q, j, hq, hxq⟩ := ih.mp hx
          refine ⟨i :: q, j, (List.cons_prefix_cons).mpr ⟨rfl, hq⟩, ?_⟩
          rw [entryAt, descend, hl, Option.bind_some]
          exact hxq
    · rintro ⟨q, j, hq, hxq⟩
      cases q with
      | nil =>
        obtain ⟨rfl, -⟩ := List.cons_prefix_cons.mp hq
        obtain rfl : T root j = x := Option.some.inj hxq
        exact List.mem_cons_self
      | cons k q =>
        obtain ⟨rfl, hpre⟩ := List.cons_prefix_cons.mp hq
        rw [entryAt, descend] at hxq
        cases hl : link (T root k) with
        | none =>
          rw [hl] at hxq
          cases hxq
        | some n' =>
          rw [hl, Option.bind_some] at hxq
          rw [trail_cons_of_link hl]
          exact List.mem_cons_of_mem _ (ih.mpr ⟨q, j, hpre, hxq⟩)

/-- Stores that agree on the entries read along a path lead to the same table. -/
theorem trail_congr
    (h : ∀ q j n, q ++ [j] <+: p → descend link T root q = some n → T' n j = T n j) :
    trail link T' root p = trail link T root p ∧ descend link T' root p = descend link T root p := by
  induction p generalizing root with
  | nil => exact ⟨rfl, rfl⟩
  | cons i p ih =>
    have hentry : T' root i = T root i := h [] i root ⟨p, rfl⟩ rfl
    cases hl : link (T root i) with
    | none => simp [trail, descend, hentry, hl]
    | some n' =>
      have hrest := @ih n' fun q j n hq hn => by
        refine h (i :: q) j n ?_ ?_
        · rw [List.cons_append]
          exact (List.cons_prefix_cons).mpr ⟨rfl, hq⟩
        · rw [descend, hl, Option.bind_some, hn]
      simp [trail, descend, hentry, hl, hrest]

/-- Stores that agree on the tables that paths of interest lead to, lead to the same tables. -/
theorem descend_congr_of_reached
    (h : ∀ p n, A.mem p → descend link T root p = some n → T' n = T n) (hq : A.mem q) :
    descend link T' root q = descend link T root q := by
  induction q using List.reverseRecOn with
  | nil => rfl
  | append_singleton q j ih =>
    have hq' := A.init_mem q j hq
    rw [descend_concat, descend_concat, ih hq']
    cases hd : descend link T root q with
    | none => rfl
    | some m => simp only [Option.bind_some, h q m hq' hd]

theorem entryAt_congr_of_reached
    (h : ∀ p n, A.mem p → descend link T root p = some n → T' n = T n) (hq : A.mem q) :
    entryAt link T' root q j = entryAt link T root q j := by
  unfold entryAt
  rw [descend_congr_of_reached h hq]
  cases hd : descend link T root q with
  | none => rfl
  | some m => simp only [Option.map_some, h q m hq hd]

/-- Stores that agree on all tables but an unreached one lead to the same tables. -/
theorem descend_congr (h : ∀ n, n ≠ f → ∀ i, T' n i = T n i) (hf : Unreached link A T root f)
    (hq : A.mem q) : descend link T' root q = descend link T root q := by
  refine descend_congr_of_reached (fun p n hp hn => ?_) hq
  exact funext (h n fun he => hf p hp (by rw [hn, he]))

theorem entryAt_congr (h : ∀ n, n ≠ f → ∀ i, T' n i = T n i) (hf : Unreached link A T root f)
    (hq : A.mem q) : entryAt link T' root q j = entryAt link T root q j := by
  refine entryAt_congr_of_reached (fun p n hp hn => ?_) hq
  exact funext (h n fun he => hf p hp (by rw [hn, he]))

theorem IsTree.congr (ht : IsTree link A T root)
    (h : ∀ p, A.mem p → descend link T' root p = descend link T root p) :
    IsTree link A T' root := by
  intro p q n hp hq hdp hdq
  rw [h p hp] at hdp
  rw [h q hq] at hdq
  exact ht p q n hp hq hdp hdq

/-! ## Edits -/

section Edits

variable [DecidableEq N] [DecidableEq I]

/-- Store `e` at label `i` of table `n`. -/
def set (T : Tables N I E) (n : N) (i : I) (e : E) : Tables N I E := fun n' i' =>
  if n' = n ∧ i' = i then e else T n' i'

@[simp] theorem set_apply_self : T.set n i e n i = e := by simp [set]

theorem set_apply_of_ne {n' : N} {i' : I} (h : n' ≠ n ∨ i' ≠ i) :
    T.set n i e n' i' = T n' i' := by
  unfold set
  rw [if_neg]
  rintro ⟨rfl, rfl⟩
  exact h.elim (· rfl) (· rfl)

@[simp] theorem set_set {e' : E} : (T.set n i e).set n i e' = T.set n i e' := by
  funext n' i'
  by_cases h : n' = n ∧ i' = i <;> simp [set, h]

theorem set_self (h : T n i = e) : T.set n i e = T := by
  funext n' i'
  unfold set
  split_ifs with hc
  · rw [hc.1, hc.2, h]
  · rfl

theorem set_comm {n' : N} {i' : I} {e' : E} (h : n ≠ n' ∨ i ≠ i') :
    (T.set n i e).set n' i' e' = (T.set n' i' e').set n i e := by
  funext m k
  by_cases h1 : m = n' ∧ k = i'
  · obtain ⟨rfl, rfl⟩ := h1
    rw [set_apply_self, set_apply_of_ne (h.imp Ne.symm Ne.symm), set_apply_self]
  · have h1' : m ≠ n' ∨ k ≠ i' := by
      by_contra hc
      push Not at hc
      exact h1 hc
    by_cases h2 : m = n ∧ k = i
    · obtain ⟨rfl, rfl⟩ := h2
      rw [set_apply_of_ne h1', set_apply_self, set_apply_self]
    · have h2' : m ≠ n ∨ k ≠ i := by
        by_contra hc
        push Not at hc
        exact h2 hc
      rw [set_apply_of_ne h1', set_apply_of_ne h2', set_apply_of_ne h2', set_apply_of_ne h1']

/-- Clear a table: every entry becomes `e₀`. -/
def clear (T : Tables N I E) (f : N) (e₀ : E) : Tables N I E := fun n i => if n = f then e₀ else T n i

omit [DecidableEq I] in
theorem clear_apply_self {e₀ : E} : T.clear f e₀ f i = e₀ := if_pos rfl

omit [DecidableEq I] in
theorem clear_apply_of_ne {e₀ : E} (h : n ≠ f) : T.clear f e₀ n i = T n i := if_neg h

theorem clear_set {e₀ : E} (h : n ≠ f) : (T.set n i e).clear f e₀ = (T.clear f e₀).set n i e := by
  funext m k
  by_cases h1 : m = f
  · subst h1
    rw [clear_apply_self, set_apply_of_ne (.inl (Ne.symm h)), clear_apply_self]
  · rw [clear_apply_of_ne h1]
    simp only [set, clear, if_neg h1]

/-- Saving an entry, editing it, editing another one and restoring the first. -/
theorem set_restore {n' : N} {i' : I} {e' : E} (h : n' ≠ n) :
    ((T.set n i e).set n' i' e').set n i (T n i) = T.set n' i' e' := by
  rw [set_comm (.inl h), set_set, set_self rfl]

theorem clear_set_restore {n' : N} {i' : I} {e' e₀ : E} (h : n' ≠ n) (hf : n ≠ f) :
    (((T.set n i e).clear f e₀).set n' i' e').set n i (T n i) = (T.clear f e₀).set n' i' e' := by
  rw [clear_set hf, set_comm (.inl h), set_set, set_self (clear_apply_of_ne hf)]

/-! ### An edit that keeps the link -/

/-- An edit that keeps the link keeps all paths. -/
theorem descend_set_link (h : link e = link (T n i)) (m : N) (q : List I) :
    descend link (T.set n i e) m q = descend link T m q := by
  induction q generalizing m with
  | nil => rfl
  | cons j q ih =>
    simp only [descend]
    have hl : link (T.set n i e m j) = link (T m j) := by
      by_cases hc : m = n ∧ j = i
      · obtain ⟨rfl, rfl⟩ := hc
        rw [set_apply_self, h]
      · simp [set, hc]
    rw [hl]
    congr 1
    funext m'
    exact ih m'

/-- What an edit at the end of a path changes, when the paths stay the same. -/
private theorem entryAt_set_of_descend (ht : IsTree link A T root) (hp : A.mem p)
    (hn : descend link T root p = some n) (hq : A.mem q)
    (hd : descend link (T.set n i e) root q = descend link T root q) :
    entryAt link (T.set n i e) root q j =
      if q = p ∧ j = i then some e else entryAt link T root q j := by
  unfold entryAt
  rw [hd]
  by_cases hc : q = p ∧ j = i
  · obtain ⟨rfl, rfl⟩ := hc
    rw [if_pos ⟨rfl, rfl⟩, hn, Option.map_some, set_apply_self]
  · rw [if_neg hc]
    cases hm : descend link T root q with
    | none => rfl
    | some m =>
      simp only [Option.map_some, Option.some.injEq]
      refine set_apply_of_ne ?_
      by_cases hmn : m = n
      · refine .inr fun hji => hc ⟨?_, hji⟩
        rw [hmn] at hm
        exact ht q p n hq hp hm hn
      · exact .inl hmn

theorem entryAt_set_link (ht : IsTree link A T root) (hp : A.mem p)
    (hn : descend link T root p = some n) (h : link e = link (T n i)) (hq : A.mem q) :
    entryAt link (T.set n i e) root q j =
      if q = p ∧ j = i then some e else entryAt link T root q j :=
  entryAt_set_of_descend ht hp hn hq (descend_set_link h root q)

theorem IsTree.set_link (ht : IsTree link A T root) (h : link e = link (T n i)) :
    IsTree link A (T.set n i e) root :=
  ht.congr fun p _ => descend_set_link h root p

/-! ### An edit off the paths of interest -/

/-- An edit leaves the paths that do not pass through it alone. -/
theorem descend_set_off (ht : IsTree link A T root) (hp : A.mem p)
    (hn : descend link T root p = some n) (hq : A.mem q) (hoff : ¬(p ++ [i]) <+: q) :
    descend link (T.set n i e) root q = descend link T root q := by
  induction q using List.reverseRecOn with
  | nil => rfl
  | append_singleton q j ih =>
    have hq' := A.init_mem q j hq
    have hoff' : ¬(p ++ [i]) <+: q := fun h => hoff (h.trans (List.prefix_append q [j]))
    rw [descend_concat, descend_concat, ih hq' hoff']
    cases hd : descend link T root q with
    | none => rfl
    | some m =>
      simp only [Option.bind_some]
      rw [set_apply_of_ne]
      by_contra hc
      push Not at hc
      obtain ⟨rfl, rfl⟩ := hc
      obtain rfl : q = p := ht q p m hq' hp hd hn
      exact hoff List.prefix_rfl

/-- An edit of an entry no path of interest passes through keeps all of them. -/
theorem descend_set_leaf (ht : IsTree link A T root) (hp : A.mem p)
    (hn : descend link T root p = some n) (hleaf : ¬A.mem (p ++ [i])) (hq : A.mem q) :
    descend link (T.set n i e) root q = descend link T root q := by
  exact descend_set_off ht hp hn hq fun hpre => hleaf (A.mem_of_prefix hpre hq)

theorem entryAt_set_leaf (ht : IsTree link A T root) (hp : A.mem p)
    (hn : descend link T root p = some n) (hleaf : ¬A.mem (p ++ [i])) (hq : A.mem q) :
    entryAt link (T.set n i e) root q j =
      if q = p ∧ j = i then some e else entryAt link T root q j :=
  entryAt_set_of_descend ht hp hn hq (descend_set_leaf ht hp hn hleaf hq)

theorem IsTree.set_leaf (ht : IsTree link A T root) (hp : A.mem p)
    (hn : descend link T root p = some n) (hleaf : ¬A.mem (p ++ [i])) :
    IsTree link A (T.set n i e) root :=
  ht.congr fun _ hq => descend_set_leaf ht hp hn hleaf hq

/-! ### Linking a fresh table -/

/-- Linking an unreached table without links adds exactly the path to it. -/
theorem descend_set_fresh (ht : IsTree link A T root) (hp : A.mem p)
    (hn : descend link T root p = some n) (hnone : link (T n i) = none) (he : link e = some f)
    (hf : Unreached link A T root f) (hz : ∀ j, link (T f j) = none) (hq : A.mem q) :
    descend link (T.set n i e) root q =
      if q = p ++ [i] then some f else descend link T root q := by
  have hfn : f ≠ n := fun h => hf p hp (by rw [hn, h])
  induction q using List.reverseRecOn with
  | nil => simp
  | append_singleton q j ih =>
    have hq' := A.init_mem q j hq
    rw [descend_concat, descend_concat, ih hq']
    by_cases hqpi : q = p ++ [i]
    · -- below the fresh table there is nothing, before and after
      subst hqpi
      have hne : p ++ [i] ++ [j] ≠ p ++ [i] := by
        intro h
        simpa using congrArg List.length h
      rw [if_pos rfl, if_neg hne, descend_concat, hn]
      simp only [Option.bind_some, hnone, Option.bind_none]
      rw [set_apply_of_ne (.inl hfn), hz]
    · rw [if_neg hqpi]
      cases hd : descend link T root q with
      | none =>
        have hne : q ++ [j] ≠ p ++ [i] := by
          intro h
          obtain ⟨rfl, -⟩ := List.append_inj' h rfl
          rw [hn] at hd
          simp at hd
        rw [if_neg hne]
        rfl
      | some m =>
        simp only [Option.bind_some]
        by_cases hc : m = n ∧ j = i
        · obtain ⟨rfl, rfl⟩ := hc
          rw [ht q p m hq' hp hd hn, if_pos rfl, set_apply_self, he]
        · have hne : q ++ [j] ≠ p ++ [i] := by
            intro h
            obtain ⟨rfl, hji⟩ := List.append_inj' h rfl
            rw [hn] at hd
            exact hc ⟨(Option.some.inj hd).symm, by simpa using hji⟩
          rw [if_neg hne, set_apply_of_ne]
          by_contra hcc
          push Not at hcc
          exact hc hcc

theorem entryAt_set_fresh (ht : IsTree link A T root) (hp : A.mem p)
    (hn : descend link T root p = some n) (hnone : link (T n i) = none) (he : link e = some f)
    (hf : Unreached link A T root f) (hz : ∀ j, link (T f j) = none) (hq : A.mem q) :
    entryAt link (T.set n i e) root q j =
      if q = p ∧ j = i then some e
      else if q = p ++ [i] then some (T f j)
      else entryAt link T root q j := by
  have hfn : f ≠ n := fun h => hf p hp (by rw [hn, h])
  by_cases hqpi : q = p ++ [i]
  · have hqp : ¬(q = p ∧ j = i) := by
      rintro ⟨h, -⟩
      rw [hqpi] at h
      simpa using congrArg List.length h
    unfold entryAt
    rw [if_neg hqp, if_pos hqpi, descend_set_fresh ht hp hn hnone he hf hz hq, if_pos hqpi,
      Option.map_some, set_apply_of_ne (.inl hfn)]
  · rw [if_neg hqpi]
    refine entryAt_set_of_descend ht hp hn hq ?_
    rw [descend_set_fresh ht hp hn hnone he hf hz hq, if_neg hqpi]

theorem IsTree.set_fresh (ht : IsTree link A T root) (hp : A.mem p)
    (hn : descend link T root p = some n) (hnone : link (T n i) = none) (he : link e = some f)
    (hf : Unreached link A T root f) (hz : ∀ j, link (T f j) = none) :
    IsTree link A (T.set n i e) root := by
  intro q r m hq hr hdq hdr
  rw [descend_set_fresh ht hp hn hnone he hf hz hq] at hdq
  rw [descend_set_fresh ht hp hn hnone he hf hz hr] at hdr
  split_ifs at hdq hdr with h1 h2 h2
  · rw [h1, h2]
  · rw [← hdq] at hdr
    exact absurd hdr (hf r hr)
  · rw [← hdr] at hdq
    exact absurd hdq (hf q hq)
  · exact ht q r m hq hr hdq hdr

end Edits

end Tables

end KoalemOS.Library
