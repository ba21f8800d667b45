import KoalemOS.Graphics.Transparency

/-!
# Which entry `get_glyph` replaces

The priority of an entry is the number of its last request, cut off to an `int` (`Stamped`). As
long as no request that misses finds such a number and its own on two sides of an odd multiple
of 2^31, the entry it replaces was never used or is the one whose last request is the oldest
(`evictsOldest_of_steps`). With request 2^31 the priorities become negative, and entry 0 is
replaced whatever its age.
-/

namespace KoalemOS.Graphics

open KoalemOS.Library

variable {font : Font} {render : Word → Option Glyph} {m : Nat → Word} {ch : Word} {s : Run} {i j : Nat}

/-! ## Priorities and last requests -/

/-- Every priority is the number of the last request of its entry. -/
structure Stamped (font : Font) (m : Nat → Word) (uses : List Nat) : Prop where
  stamps : ∀ i < glyphCacheSize, m (font.cell.priorityAt i) = toPriority (lastUse uses i)

/-- `cur_priority` is the number of the last request. -/
structure Counted (font : Font) (s : Run) : Prop where
  counter : s.cache.curPriority = s.uses.length
  bound : s.uses.length < 2 ^ 64
  stamped : Stamped font s.cache.mem s.uses

theorem counted_initial (font : Font) : Counted font .initial :=
  ⟨rfl, by decide, ⟨fun _ _ => rfl⟩⟩

/-- The priorities after the ages have been forgotten. -/
theorem run_forget {i : Nat} (hi : i < glyphCacheSize) (m : Nat → Word) :
    Store.run m ((List.range glyphCacheSize).map fun i => (⟨font.cell.priorityAt i, 0⟩ : Store Word))
      (font.cell.priorityAt i) = 0 := by
  refine Store.run_eq_of_forall ⟨_, List.mem_map.mpr ⟨i, List.mem_range.mpr hi, rfl⟩, rfl⟩ fun st hst _ => ?_
  obtain ⟨j, -, rfl⟩ := List.mem_map.mp hst
  rfl

/-- What a request starts from: its number, and the priorities of the requests it remembers. -/
theorem Counted.next (h : Counted font s) :
    (nextPriority font.cell s.cache.curPriority).1 = s.remembered.length + 1 ∧ s.remembered.length + 1 < 2 ^ 64 ∧
      Stamped font (Store.run s.cache.mem (nextPriority font.cell s.cache.curPriority).2) s.remembered := by
  obtain ⟨hcounter, hbound, hstamped⟩ := h
  unfold Run.remembered nextPriority
  dsimp only
  by_cases hforget : s.cache.Forgets
  · have hzero : (s.cache.curPriority + 1) % 2 ^ 64 = 0 := hforget
    rw [if_pos hforget, if_pos hzero]
    exact ⟨rfl, by decide, ⟨fun i hi => run_forget hi _⟩⟩
  · have hne : ¬(s.cache.curPriority + 1) % 2 ^ 64 = 0 := hforget
    rw [if_neg hforget, if_neg hne]
    exact ⟨by dsimp only; omega, by omega, hstamped⟩

/-- The priority of the entry that is used becomes the number of the request. -/
theorem Stamped.use {m' : Nat → Word} {uses : List Nat} (h : Stamped font m uses)
    (hself : m' (font.cell.priorityAt i) = toPriority (uses.length + 1))
    (hother : ∀ j, j ≠ i → m' (font.cell.priorityAt j) = m (font.cell.priorityAt j)) :
    Stamped font m' (i :: uses) := by
  refine ⟨fun j hj => ?_⟩
  rw [lastUse_cons]
  split_ifs with hji
  · rw [hji, hself]
  · rw [hother j hji, h.stamps j hj]

/-! ## A request -/

/-- No entry holds the character. -/
def Absent (cell : Cell) (m : Nat → Word) (ch : Word) : Prop := ∀ j < glyphCacheSize, cell.chOf m j ≠ ch

/-- A request that misses replaces an entry that was never used, or else the one whose last
request is the oldest. -/
def EvictsOldest (font : Font) (render : Word → Option Glyph) (s : Run) (ch : Word) : Prop :=
  Absent font.cell s.cache.mem ch → ∀ a, getGlyph font render s.cache ch = some a →
    LeastRecentlyUsed glyphCacheSize s.remembered a.entry

/-- If the request misses, its glyph is drawn inside the bitmap, and its number lies in one window
with the numbers of the last requests of all entries. -/
structure StepOk (font : Font) (render : Word → Option Glyph) (s : Run) (ch : Word) : Prop where
  nonzero : ch ≠ 0
  inside : Absent font.cell s.cache.mem ch → ∀ glyph, render ch = some glyph → CornersInside font glyph
  oneWindow : Absent font.cell s.cache.mem ch →
    ∀ j < glyphCacheSize, window (lastUse s.remembered j) = window (s.remembered.length + 1)

theorem Counted.request {s' : Run} (h : Counted font s) (hok : StepOk font render s ch)
    (hs : s.request font render ch = some s') : Counted font s' := by
  obtain ⟨hcur, hbound, hstamped⟩ := h.next
  obtain ⟨a, ha, rfl⟩ := Option.map_eq_some_iff.mp hs
  rcases getGlyph_cases ha with ⟨i, -, rfl⟩ | ⟨i, glyph, hlookup, hr, rfl⟩
  · refine ⟨hcur, hbound, ?_⟩
    show Stamped font (Store.run s.cache.mem (_ ++ [_])) (i :: s.remembered)
    rw [Store.run_append, hcur]
    refine hstamped.use (Function.update_self _ _ _) fun j hj => Function.update_of_ne (fun heq => ?_) _ _
    have hsize := font.cell.entrySize_eq
    exact hj (font.cell.entry_inj (a := 1) (b := 1) (by omega) (by omega) heq).1
  · refine ⟨hcur, hbound, ?_⟩
    have habsent : Absent font.cell s.cache.mem ch := fun j hj => by
      rw [← chOf_forget font.cell s.cache.mem s.cache.curPriority]
      exact (lookup_miss hlookup).2.1 j hj
    have hinside := (drawsInside_iff font glyph).mpr (hok.inside habsent glyph hr)
    show Stamped font (Store.run s.cache.mem (_ ++ fillEntry font glyph i ch _)) (i :: s.remembered)
    rw [Store.run_append, hcur]
    exact hstamped.use (fillEntry_priority hinside _ i ch _) fun j hj => fillEntry_priority_other hinside hj

theorem counted_of_reachable (hs : Reachable (Run.request font render) (StepOk font render) .initial s) :
    Counted font s :=
  Reachable.invariant (Counted font) hs (counted_initial font) fun _ _ _ h hok hstep => h.request hok hstep

/-- Where the ages are counted, the entry with the least priority is the one to replace. -/
theorem Counted.evicts (h : Counted font s) (hok : StepOk font render s ch) : EvictsOldest font render s ch := by
  intro habsent a ha
  obtain ⟨hcur, -, hstamped⟩ := h.next
  have hwindow := hok.oneWindow habsent
  rcases getGlyph_cases ha with ⟨i, hlookup, -⟩ | ⟨i, glyph, hlookup, -, rfl⟩
  · obtain ⟨hi, hholds⟩ := lookup_hit hlookup
    rw [chOf_forget] at hholds
    exact absurd hholds (habsent i hi)
  · obtain ⟨-, -, hleast⟩ := lookup_miss hlookup
    have hkey : ∀ j < glyphCacheSize, font.cell.priorityOf
        (Store.run s.cache.mem (nextPriority font.cell s.cache.curPriority).2) j =
          (toPriority (lastUse s.remembered j)).toInt := fun j hj =>
      congrArg BitVec.toInt (hstamped.stamps j hj)
    rw [hcur] at hleast
    show LeastRecentlyUsed glyphCacheSize s.remembered i
    rw [leastRecentlyUsed_iff]
    rcases leastBelow_spec (font.cell.priorityOf (Store.run s.cache.mem (nextPriority font.cell s.cache.curPriority).2))
      0 0 (toPriority (s.remembered.length + 1)).toInt glyphCacheSize with ⟨v, hv, -, hlt, -, hall⟩ | ⟨-, hall⟩
    · intro j hj
      obtain rfl : i = v := hleast.trans hv
      have hle := hall j (Nat.zero_le j) (by omega)
      rw [hkey i (by omega), hkey j hj] at hle
      by_contra hlt'
      have := (toInt_lt_toInt_iff ((hwindow j hj).trans (hwindow i (by omega)).symm)).mpr (not_le.mp hlt')
      exact absurd hle (not_le.mpr this)
    · -- entry 0 was used before this request
      have hle := hall 0 (Nat.le_refl 0) (by decide)
      rw [hkey 0 (by decide)] at hle
      have hlast := lastUse_le s.remembered 0
      have := (toInt_lt_toInt_iff (hwindow 0 (by decide))).mpr (Nat.lt_succ_of_le hlast)
      exact absurd hle (not_le.mpr this)

theorem remembered_of_lt (h : s.cache.curPriority + 1 < 2 ^ 64) : s.remembered = s.uses := by
  refine if_neg fun hforget => ?_
  have hzero : (s.cache.curPriority + 1) % 2 ^ 64 = 0 := hforget
  omega

/-- A miss leaves the characters of the other entries. -/
theorem getGlyph_other {s : Cache} {a : Access} (hinside : ∀ glyph, render ch = some glyph → DrawsInside font glyph)
    (ha : getGlyph font render s ch = some a) (hj : j ≠ a.entry) :
    font.cell.chOf (s.after a).mem j = font.cell.chOf s.mem j := by
  rcases getGlyph_cases ha with ⟨i, -, rfl⟩ | ⟨i, glyph, -, hr, rfl⟩
  · refine chOf_priorities (fun st hst => ?_) j
    rcases List.mem_append.mp hst with hst | hst
    · obtain ⟨k, rfl⟩ := nextPriority_stores hst
      exact ⟨k, rfl⟩
    · rw [List.mem_singleton.mp hst]
      exact ⟨i, rfl⟩
  · show font.cell.chOf (Store.run s.mem (_ ++ _)) j = _
    rw [Store.run_append, fillEntry_ch_other (hinside glyph hr) hj, chOf_forget]

/-- The characters from 1 to `k` were requested, and are in as many entries. -/
structure Filling (k : Nat) (s : Run) : Prop where
  reachable : Reachable (Run.request smallFont fun _ => some dot) (StepOk smallFont fun _ => some dot) .initial s
  coherent : Coherent smallFont (fun _ => some dot) s.cache.mem
  length : s.uses.length = k
  nodup : s.uses.Nodup
  bound : ∀ i ∈ s.uses, i < glyphCacheSize
  used : ∀ i ∈ s.uses, smallFont.cell.chOf s.cache.mem i ≠ 0
  held : ∀ i, (smallFont.cell.chOf s.cache.mem i).toNat ≤ k

theorem filling_zero : Filling 0 .initial :=
  ⟨.start, coherent_initial _ _, rfl, List.nodup_nil, by simp [Run.initial], by simp [Run.initial], fun _ => le_rfl⟩

theorem Filling.remembered {k : Nat} (h : Filling k s) (hk : k + 1 < 2 ^ 31) : s.remembered = s.uses := by
  refine remembered_of_lt ?_
  rw [(counted_of_reachable h.reachable).counter, h.length]
  omega

/-- The next character is in no entry, and its request meets the condition. -/
theorem Filling.next {k : Nat} (h : Filling k s) (hk : k + 1 < 2 ^ 31) :
    Absent smallFont.cell s.cache.mem (BitVec.ofNat 32 (k + 1)) ∧
      StepOk smallFont (fun _ => some dot) s (BitVec.ofNat 32 (k + 1)) := by
  have htoNat : (BitVec.ofNat 32 (k + 1)).toNat = k + 1 := by
    rw [BitVec.toNat_ofNat]
    omega
  refine ⟨fun j _ hch => ?_, fun hzero => ?_, fun _ glyph hr => ?_, fun _ j _ => ?_⟩
  · have := h.held j
    rw [hch, htoNat] at this
    omega
  · rw [hzero] at htoNat
    exact absurd htoNat (by simp)
  · obtain rfl := Option.some.inj hr
    exact .inr (.inr ⟨0, by decide, by decide⟩)
  · have hlast := lastUse_le s.remembered j
    rw [h.remembered hk, h.length] at hlast ⊢
    unfold window
    omega

/-- As long as entries are empty, one of them is taken. -/
theorem Filling.succ {k : Nat} (h : Filling k s) (hk : k < glyphCacheSize) : ∃ s', Filling (k + 1) s' := by
  rw [glyphCacheSize] at hk
  obtain ⟨habsent, hok⟩ := h.next (by omega)
  obtain ⟨a, ha⟩ := @exists_getGlyph (BitVec.ofNat 32 (k + 1)) (fun _ => some dot) smallFont _ s.cache rfl
  have hserves := serves_of_coherent rendersFitting_dot h.coherent hok.nonzero ha
  have hlru := (counted_of_reachable h.reachable).evicts hok habsent a ha
  rw [h.remembered (by omega)] at hlru
  have hnew : a.entry ∉ s.uses := by
    refine hlru.resolve_right fun hall => ?_
    have hsub : Finset.range glyphCacheSize ⊆ s.uses.toFinset := fun i hi =>
      List.mem_toFinset.mpr (hall.1 i (Finset.mem_range.mp hi))
    have hle := (Finset.card_le_card hsub).trans s.uses.toFinset_card_le
    rw [Finset.card_range, h.length, glyphCacheSize] at hle
    omega
  have hother : ∀ j, j ≠ a.entry →
      smallFont.cell.chOf (s.cache.after a).mem j = smallFont.cell.chOf s.cache.mem j := fun j hj =>
    getGlyph_other (fun glyph hr => (drawsInside_iff _ _).mpr (hok.inside habsent glyph hr)) ha hj
  have hstep : s.request smallFont (fun _ => some dot) (BitVec.ofNat 32 (k + 1)) =
      some ⟨s.cache.after a, a.entry :: s.uses⟩ := by
    rw [Run.request, ha, h.remembered (by omega)]
    rfl
  refine ⟨_, h.reachable.step hok hstep, hserves.coherent, congrArg (· + 1) h.length, List.nodup_cons.mpr ⟨hnew, h.nodup⟩,
    ?_, ?_, fun i => ?_⟩
  · simpa using ⟨hserves.entry_lt, h.bound⟩
  · intro i hi
    rcases List.mem_cons.mp hi with rfl | hi
    · rw [hserves.holds]
      exact hok.nonzero
    · rw [hother i fun heq => hnew (heq ▸ hi)]
      exact h.used i hi
  · by_cases hi : i = a.entry
    · rw [hi, hserves.holds, BitVec.toNat_ofNat]
      omega
    · rw [hother i hi]
      exact (h.held i).trans (Nat.le_succ k)

theorem exists_filling {k : Nat} (hk : k ≤ glyphCacheSize) : ∃ s, Filling k s := by
  induction k with
  | zero => exact ⟨_, filling_zero⟩
  | succ k ih =>
    obtain ⟨s, hs⟩ := ih (Nat.le_of_succ_le hk)
    exact hs.succ hk

/-- After as many characters as there are entries, none is empty. -/
theorem Filling.full (h : Filling glyphCacheSize s) : ∀ i < glyphCacheSize, i ∈ s.uses := by
  have hsub : s.uses.toFinset ⊆ Finset.range glyphCacheSize := fun i hi =>
    Finset.mem_range.mpr (h.bound i (List.mem_toFinset.mp hi))
  have hcard : (Finset.range glyphCacheSize).card ≤ s.uses.toFinset.card := by
    rw [List.toFinset_card_of_nodup h.nodup, h.length, Finset.card_range]
  intro i hi
  rw [← List.mem_toFinset, Finset.eq_of_subset_of_card_le hsub hcard]
  exact Finset.mem_range.mpr hi

/-! ## The main result -/

/-- **Replacement.** In every run whose requests meet the condition, every request that misses
replaces an entry that was never used, or else the one whose last request is the oldest. -/
theorem evictsOldest_of_steps (hs : Reachable (Run.request font render) (StepOk font render) .initial s)
    (hok : StepOk font render s ch) : EvictsOldest font render s ch :=
  (counted_of_reachable hs).evicts hok

/-- A full cache is asked for one more character: the entry it replaces was used, and longest ago. -/
theorem evictsOldest_of_steps_full : ∃ s a,
    Reachable (Run.request smallFont fun _ => some dot) (StepOk smallFont fun _ => some dot) .initial s ∧
    (∀ i < glyphCacheSize, smallFont.cell.chOf s.cache.mem i ≠ 0) ∧ Absent smallFont.cell s.cache.mem 101 ∧
    getGlyph smallFont (fun _ => some dot) s.cache 101 = some a ∧ a.entry ∈ s.remembered ∧
    ∀ i < glyphCacheSize, s.remembered.idxOf i ≤ s.remembered.idxOf a.entry := by
  obtain ⟨s, h⟩ := exists_filling (k := glyphCacheSize) le_rfl
  obtain ⟨habsent, hok⟩ := h.next (by decide)
  obtain ⟨a, ha⟩ := @exists_getGlyph 101 (fun _ => some dot) smallFont _ s.cache rfl
  have hlru := evictsOldest_of_steps h.reachable hok habsent a ha
  have hremembered := h.remembered (by decide)
  have hlt : a.entry < glyphCacheSize := (serves_of_coherent rendersFitting_dot h.coherent hok.nonzero ha).entry_lt
  have hused : a.entry ∈ s.remembered := by
    rw [hremembered]
    exact h.full _ hlt
  exact ⟨s, a, h.reachable, fun i hi => h.used i (h.full i hi), habsent, ha, hused,
    (hlru.resolve_left fun hno => hno hused).2⟩

/-! ## Request 2^31 -/

/-- One character was requested `k` times: it is in entry 0, and the other entries are empty. -/
structure OneCharacter (k : Nat) (s : Run) : Prop where
  reachable : Reachable (Run.request smallFont fun _ => some dot) (fun _ ch => ch ≠ 0) .initial s
  counter : s.cache.curPriority = k
  uses : s.uses = List.replicate k 0
  first : smallFont.cell.chOf s.cache.mem 0 = 1
  empty : ∀ j, j ≠ 0 → smallFont.cell.chOf s.cache.mem j = 0

theorem nextPriority_of_lt (cell : Cell) {cur : Nat} (h : cur + 1 < 2 ^ 64) :
    nextPriority cell cur = (cur + 1, []) := by
  have hmod : (cur + 1) % 2 ^ 64 = cur + 1 := Nat.mod_eq_of_lt h
  unfold nextPriority
  dsimp only
  rw [hmod, if_neg (Nat.succ_ne_zero cur)]

/-- The first request fills entry 0. -/
theorem oneCharacter_one : ∃ s, OneCharacter 1 s := by
  have hlookup : lookup smallFont.cell (fun _ => 0) 1 1 = .miss 0 := by
    rcases lookupFrom_cases smallFont.cell (fun _ => 0) 1 0 0 (toPriority 1).toInt glyphCacheSize with
      ⟨v, -, -, -, hch⟩ | ⟨hmiss, -⟩
    · have hzero : (0 : Word) = 1 := hch
      exact absurd hzero (by decide)
    · rw [lookup, hmiss, glyphCacheSize, leastBelow_head 0 99 (by decide) fun _ => le_rfl]
  have hcall : getGlyph smallFont (fun _ => some dot) Run.initial.cache 1 =
      some ⟨0, 1, fillEntry smallFont dot 0 1 1⟩ := by
    rw [getGlyph_eq, show nextPriority smallFont.cell Run.initial.cache.curPriority = (1, []) from rfl,
      Store.run_nil, show Run.initial.cache.mem = fun _ => 0 from rfl, hlookup]
    rfl
  have hstep : Run.initial.request smallFont (fun _ => some dot) 1 =
      some ⟨⟨Store.run (fun _ => 0) (fillEntry smallFont dot 0 1 1), 1⟩, [0]⟩ := by
    rw [Run.request, hcall]
    rfl
  have hinside : DrawsInside smallFont dot := (drawsInside_iff _ _).mpr (.inr (.inr ⟨0, by decide, by decide⟩))
  have hfirst := fillEntry_ch hinside (fun _ => 0) 0 1 1
  have hempty : ∀ j, j ≠ 0 →
      smallFont.cell.chOf (Store.run (fun _ => 0) (fillEntry smallFont dot 0 1 1)) j = 0 := fun j hj =>
    fillEntry_ch_other hinside hj
  exact ⟨_, .step .start (by decide) hstep, rfl, rfl, hfirst, hempty⟩

/-- Every further request finds it there. -/
theorem OneCharacter.succ {k : Nat} (h : OneCharacter k s) (hk : k + 1 < 2 ^ 64) : ∃ s', OneCharacter (k + 1) s' := by
  obtain ⟨hreach, hcounter, huses, hfirst, hempty⟩ := h
  have hnext : nextPriority smallFont.cell s.cache.curPriority = (k + 1, []) := by
    rw [hcounter]
    exact nextPriority_of_lt _ hk
  have hlookup : lookup smallFont.cell s.cache.mem 1 (k + 1) = .hit 0 := if_pos hfirst
  have hcall : getGlyph smallFont (fun _ => some dot) s.cache 1 =
      some ⟨0, k + 1, [⟨smallFont.cell.priorityAt 0, toPriority (k + 1)⟩]⟩ := by
    rw [getGlyph_eq, hnext, Store.run_nil, hlookup]
    rfl
  have hremembered : s.remembered = s.uses := remembered_of_lt (by omega)
  have hstep : s.request smallFont (fun _ => some dot) 1 = some ⟨⟨Store.run s.cache.mem
      [⟨smallFont.cell.priorityAt 0, toPriority (k + 1)⟩], k + 1⟩, 0 :: s.uses⟩ := by
    rw [Run.request, hcall, hremembered]
    rfl
  have hch := @chOf_priorities smallFont.cell s.cache.mem [⟨smallFont.cell.priorityAt 0, toPriority (k + 1)⟩]
    fun st hst => ⟨0, by rw [List.mem_singleton.mp hst]⟩
  exact ⟨_, hreach.step (by decide) hstep, rfl, by rw [huses]; rfl, (hch 0).trans hfirst,
    fun j hj => (hch j).trans (hempty j hj)⟩

theorem exists_oneCharacter {k : Nat} (h₁ : 1 ≤ k) (hk : k < 2 ^ 64) : ∃ s, OneCharacter k s := by
  induction k, h₁ using Nat.le_induction with
  | base => exact oneCharacter_one
  | succ k _ ih =>
    obtain ⟨s, hs⟩ := ih (by omega)
    exact hs.succ hk

/-- Request 2^31, for another character, replaces entry 0, which was used by every request before;
the others never were. -/
theorem not_evictsOldest_two_pow : ¬∀ (font : Font) (render : Word → Option Glyph) (s : Run) (ch : Word),
    Reachable (Run.request font render) (fun _ ch => ch ≠ 0) .initial s → ch ≠ 0 →
      EvictsOldest font render s ch := by
  intro h
  obtain ⟨s, hreach, hcounter, huses, hfirst, hempty⟩ := @exists_oneCharacter (2 ^ 31 - 1) (by decide) (by decide)
  have habsent : Absent smallFont.cell s.cache.mem 2 := by
    intro j _ hch
    by_cases hj : j = 0
    · rw [hj, hfirst] at hch
      exact absurd hch (by decide)
    · rw [hempty j hj] at hch
      exact absurd hch (by decide)
  have hnext : nextPriority smallFont.cell s.cache.curPriority = (2 ^ 31, []) := by
    rw [hcounter]
    exact nextPriority_of_lt _ (by decide)
  -- no priority is below that of the request
  have hleast : leastBelow (smallFont.cell.priorityOf s.cache.mem) 0 0 (toPriority (2 ^ 31)).toInt glyphCacheSize = 0 :=
    leastBelow_of_le (fun j => BitVec.le_toInt _) 0 0 glyphCacheSize
  have hcall : getGlyph smallFont (fun _ => some dot) s.cache 2 =
      some ⟨0, 2 ^ 31, fillEntry smallFont dot 0 2 (2 ^ 31)⟩ := by
    rcases lookupFrom_cases smallFont.cell s.cache.mem 2 0 0 (toPriority (2 ^ 31)).toInt glyphCacheSize with
      ⟨v, -, -, hlt, hch⟩ | ⟨hmiss, -⟩
    · exact absurd hch (habsent v (by omega))
    · rw [getGlyph_eq, hnext, Store.run_nil, lookup, hmiss, hleast]
      rfl
  have hremembered : s.remembered = List.replicate (2 ^ 31 - 1) 0 := by
    rw [remembered_of_lt (by omega), huses]
  have hlru := h smallFont (fun _ => some dot) s 2 hreach (by decide) habsent _ hcall
  rw [hremembered] at hlru
  rcases hlru with hnever | ⟨hall, -⟩
  · exact hnever (List.mem_replicate.mpr ⟨by decide, rfl⟩)
  · have := (List.mem_replicate.mp (hall 1 (by decide))).2
    omega

end KoalemOS.Graphics
