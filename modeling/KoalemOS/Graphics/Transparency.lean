import KoalemOS.Graphics.GlyphBitmap
import Mathlib.Data.Finset.Card
import Mathlib.Data.Finset.Range

/-!
# The glyph cache is transparent

Where FreeType renders every character to a glyph that fits in the cell, every request returns
the rendering of its character, whatever was requested and replaced before, and at no moment do
two entries hold the same character (`glyphCache_transparent`). The invariant is `Coherent`: an
entry that holds a character holds its rendering, and no other entry holds it.
-/

namespace KoalemOS.Graphics

open KoalemOS.Library

variable {font : Font} {glyph : Glyph} {render : Word → Option Glyph} {m : Nat → Word} {ch : Word}
  {cur i j k x y : Nat} {s : Cache} {a : Access}

/-! ## The rendering of a glyph -/

/-- The glyph fits in the cell, or has no pixels. -/
def Glyph.FitsCell (font : Font) (glyph : Glyph) : Prop :=
  glyph.rows = 0 ∨ glyph.width = 0 ∨
    (0 ≤ glyph.bitmapLeft ∧ glyph.bitmapLeft + glyph.width ≤ font.cell.advX) ∧
      0 ≤ font.fontHeight - glyph.bitmapTop ∧ font.fontHeight - glyph.bitmapTop + glyph.rows ≤ font.cell.advY

/-- Pixel `x`, `y` of the cell belongs to pixel `x'`, `y'` of the glyph. -/
def Glyph.Covers (font : Font) (glyph : Glyph) (x y x' y' : Nat) : Prop :=
  x' < glyph.width ∧ y' < glyph.rows ∧ (x : Int) = x' + glyph.bitmapLeft ∧
    (y : Int) = y' + (font.fontHeight - glyph.bitmapTop)

/-- The rendering on the background: a pixel of the cell has the colour of the pixel of the glyph
there, or else the background colour. -/
def IsRendering (font : Font) (glyph : Glyph) (bitmap : Nat → Word) : Prop :=
  ∀ x < font.cell.advX, ∀ y < font.cell.advY,
    (∀ x' y', glyph.Covers font x y x' y' → bitmap (y * font.cell.advX + x) = font.bgFgLerp (glyph.gray x' y')) ∧
    ((∀ x' y', ¬glyph.Covers font x y x' y') → bitmap (y * font.cell.advX + x) = font.bgCol)

/-- A pixel of a glyph that fits goes to the pixel of the cell it belongs to. -/
theorem Glyph.FitsCell.target (h : glyph.FitsCell font) (hx : x < glyph.width) (hy : y < glyph.rows) :
    ∃ x' < font.cell.advX, ∃ y' < font.cell.advY, glyph.Covers font x' y' x y ∧
      targetIndex font glyph x y = y' * font.cell.advX + x' := by
  rcases h with hrows | hwidth | ⟨⟨hleft, hright⟩, htop, hbottom⟩
  · omega
  · omega
  · obtain ⟨x', hx'⟩ := @Int.eq_ofNat_of_zero_le (x + glyph.bitmapLeft) (by omega)
    obtain ⟨y', hy'⟩ := @Int.eq_ofNat_of_zero_le (y + (font.fontHeight - glyph.bitmapTop)) (by omega)
    have hlt := @Cell.index_lt font.cell x' y' (by omega) (by omega)
    have hpixels := font.cell.pixels_le
    refine ⟨x', by omega, y', by omega, ⟨hx, hy, hx'.symm, hy'.symm⟩, ?_⟩
    have hpos : position font glyph x y = (y' * font.cell.advX + x' : Nat) := by
      unfold position
      rw [hx', show (font.fontHeight + y - glyph.bitmapTop : Int) = y' by omega, Int.natCast_add, Int.natCast_mul]
    rw [targetIndex_eq, hpos, u32_of_lt (by omega)]

theorem Glyph.FitsCell.drawsInside (h : glyph.FitsCell font) : DrawsInside font glyph := by
  intro x hx y hy
  obtain ⟨x', hx', y', hy', -, htarget⟩ := h.target hx hy
  rw [htarget]
  exact font.cell.index_lt hx' hy'

/-- The entry that is filled holds the rendering. -/
theorem fillEntry_isRendering (h : glyph.FitsCell font) (m : Nat → Word) (i : Nat) (ch : Word) (cur : Nat) :
    IsRendering font glyph fun k => Store.run m (fillEntry font glyph i ch cur) (font.cell.bitmapAt i k) := by
  intro x hx y hy
  have hpixels := font.cell.pixels_le
  have hindex := font.cell.index_lt hx hy
  -- what the drawing stores at the pixel comes from a pixel of the glyph that covers it
  have hdrawn : ∀ st ∈ drawGlyph font glyph i, st.addr = font.cell.bitmapAt i (y * font.cell.advX + x) →
      ∃ x' y', glyph.Covers font x y x' y' ∧ st.val = font.bgFgLerp (glyph.gray x' y') := by
    intro st hst haddr
    obtain ⟨x', hx', y', hy', rfl⟩ := Store.mem_grid.mp hst
    obtain ⟨u, hu, v, hv, hcovers, htarget⟩ := h.target hx' hy'
    have heq := Nat.add_left_cancel haddr
    rw [htarget] at heq
    obtain ⟨rfl, rfl⟩ := font.cell.index_inj hu hx heq
    exact ⟨x', y', hcovers, rfl⟩
  unfold fillEntry
  rw [Store.run_append, Store.run_append]
  refine ⟨fun x' y' hcovers => ?_, fun hnone => ?_⟩
  · obtain ⟨hx', hy', hxeq, hyeq⟩ := hcovers
    obtain ⟨u, hu, v, hv, ⟨-, -, hueq, hveq⟩, htarget⟩ := h.target hx' hy'
    obtain rfl : u = x := by omega
    obtain rfl : v = y := by omega
    refine Store.run_eq_of_forall ⟨_, Store.mem_grid.mpr ⟨x', hx', y', hy', rfl⟩, ?_⟩ fun st hst haddr => ?_
    · show font.cell.bitmapAt i (targetIndex font glyph x' y') = _
      rw [htarget]
    · obtain ⟨x'', y'', ⟨-, -, hxeq', hyeq'⟩, hval⟩ := hdrawn st hst haddr
      obtain rfl : x'' = x' := by omega
      obtain rfl : y'' = y' := by omega
      exact hval
  · dsimp only
    rw [Store.run_other fun st hst haddr => ?_]
    · refine Store.run_eq_of_forall ⟨_, Store.mem_grid.mpr ⟨x, hx, y, hy, rfl⟩, ?_⟩ fun st hst _ => ?_
      · have hu := @u32_of_lt (y * font.cell.advX + x) (by omega)
        rw [Int.natCast_add, Int.natCast_mul] at hu
        exact congrArg (font.cell.bitmapAt i) hu
      · obtain ⟨-, -, -, hval⟩ := clearBitmap_inside hst
        exact hval
    · obtain ⟨x', y', hcovers, -⟩ := hdrawn st hst haddr
      exact hnone x' y' hcovers

/-! ## Coherence -/

/-- No two entries hold the same character. -/
def AtMostOnce (cell : Cell) (m : Nat → Word) : Prop :=
  ∀ i < glyphCacheSize, ∀ j < glyphCacheSize, cell.chOf m i ≠ 0 → cell.chOf m i = cell.chOf m j → i = j

/-- The bitmap of an entry. -/
def Cell.bitmapOf (cell : Cell) (m : Nat → Word) (i : Nat) : Nat → Word := fun k => m (cell.bitmapAt i k)

/-- An entry that holds a character holds its rendering, and no other entry holds it. -/
structure Coherent (font : Font) (render : Word → Option Glyph) (m : Nat → Word) : Prop where
  rendered : ∀ i < glyphCacheSize, font.cell.chOf m i ≠ 0 →
    ∃ glyph, render (font.cell.chOf m i) = some glyph ∧ IsRendering font glyph (font.cell.bitmapOf m i)
  unique : AtMostOnce font.cell m

theorem coherent_initial (font : Font) (render : Word → Option Glyph) :
    Coherent font render Cache.initial.mem :=
  ⟨fun _ _ h => absurd rfl h, fun _ _ _ _ h => absurd rfl h⟩

/-- Every character is rendered to a glyph that fits. -/
def RendersFitting (font : Font) (render : Word → Option Glyph) : Prop :=
  ∀ ch, ch ≠ 0 → ∃ glyph, render ch = some glyph ∧ glyph.FitsCell font

theorem IsRendering.congr {b b' : Nat → Word} (h : IsRendering font glyph b)
    (heq : ∀ k < font.cell.pixels, b' k = b k) : IsRendering font glyph b' := by
  intro x hx y hy
  rw [heq _ (font.cell.index_lt hx hy)]
  exact h x hx y hy

/-- Stores to priorities leave bitmaps alone. -/
theorem bitmapOf_priorities {ss : List (Store Word)} (h : ∀ st ∈ ss, ∃ i, st.addr = font.cell.priorityAt i) (j : Nat)
    (hk : k < font.cell.pixels) : font.cell.bitmapOf (Store.run m ss) j k = font.cell.bitmapOf m j k := by
  have hsize := font.cell.entrySize_eq
  have := @run_priorities font.cell m ss h (2 + k) (by omega) (by omega) j
  rwa [← Nat.add_assoc] at this

theorem Coherent.priorities {ss : List (Store Word)} (h : Coherent font render m)
    (hss : ∀ st ∈ ss, ∃ i, st.addr = font.cell.priorityAt i) : Coherent font render (Store.run m ss) := by
  refine ⟨fun i hi hne => ?_, fun i hi j hj hne heq => ?_⟩
  · rw [chOf_priorities hss] at hne ⊢
    obtain ⟨glyph, hr, hrendering⟩ := h.rendered i hi hne
    exact ⟨glyph, hr, hrendering.congr fun k hk => bitmapOf_priorities hss i hk⟩
  · rw [chOf_priorities hss] at hne heq
    rw [chOf_priorities hss] at heq
    exact h.unique i hi j hj hne heq

/-- One entry may take a character that no entry holds. -/
theorem AtMostOnce.of_one {cell : Cell} {m' : Nat → Word} (h : AtMostOnce cell m)
    (hmiss : ∀ j < glyphCacheSize, cell.chOf m j ≠ ch)
    (hone : ∀ j, cell.chOf m' j = cell.chOf m j ∨ j = i ∧ cell.chOf m' j = ch) : AtMostOnce cell m' := by
  intro j hj j' hj' hne heq
  rcases hone j with hsame | ⟨rfl, hnew⟩
  · rcases hone j' with hsame' | ⟨rfl, hnew'⟩
    · rw [hsame] at hne heq
      rw [hsame'] at heq
      exact h j hj j' hj' hne heq
    · rw [hsame, hnew'] at heq
      exact absurd heq (hmiss j hj)
  · rcases hone j' with hsame' | ⟨rfl, -⟩
    · rw [hnew, hsame'] at heq
      exact absurd heq.symm (hmiss j' hj')
    · rfl

/-- A miss keeps the cache coherent. -/
theorem Coherent.fillEntry (h : Coherent font render m) (hi : i < glyphCacheSize) (hr : render ch = some glyph)
    (hfits : glyph.FitsCell font) (hmiss : ∀ j < glyphCacheSize, font.cell.chOf m j ≠ ch) (cur : Nat) :
    Coherent font render (Store.run m (Graphics.fillEntry font glyph i ch cur)) := by
  have hinside := hfits.drawsInside
  have hself := fillEntry_ch hinside m i ch cur
  refine ⟨fun j hj hne => ?_, h.unique.of_one (i := i) hmiss fun j => ?_⟩
  · by_cases hji : j = i
    · subst hji
      rw [hself]
      exact ⟨glyph, hr, fillEntry_isRendering hfits m j ch cur⟩
    · rw [fillEntry_ch_other hinside hji] at hne ⊢
      obtain ⟨glyph', hr', hrendering⟩ := h.rendered j hj hne
      exact ⟨glyph', hr', hrendering.congr fun k hk => fillEntry_bitmap_other hinside hji hk⟩
  · by_cases hji : j = i
    · exact .inr ⟨hji, hji ▸ hself⟩
    · exact .inl (fillEntry_ch_other hinside hji)

/-! ## Requests -/

/-- A call that is served from a coherent cache: the entry holds the character and its rendering,
the cache is coherent again, and has been free of doubles at every moment. -/
structure Serves (font : Font) (render : Word → Option Glyph) (s : Cache) (ch : Word) (a : Access) : Prop where
  entry_lt : a.entry < glyphCacheSize
  holds : font.cell.chOf (s.after a).mem a.entry = ch
  coherent : Coherent font render (s.after a).mem
  moments : ∀ k, AtMostOnce font.cell (Store.run s.mem (a.stores.take k))

/-- **A request.** -/
theorem serves_of_coherent (hrender : RendersFitting font render) (h : Coherent font render s.mem) (hch : ch ≠ 0)
    (ha : getGlyph font render s ch = some a) : Serves font render s ch a := by
  have hforget : ∀ st ∈ (nextPriority font.cell s.curPriority).2, ∃ i, st.addr = font.cell.priorityAt i := by
    intro st hst
    obtain ⟨i, rfl⟩ := nextPriority_stores hst
    exact ⟨i, rfl⟩
  have hforgot := h.priorities hforget
  rcases getGlyph_cases ha with ⟨i, hlookup, rfl⟩ | ⟨i, glyph, hlookup, hr, rfl⟩
  · -- a hit writes priorities only
    obtain ⟨hi, hholds⟩ := lookup_hit hlookup
    rw [chOf_priorities hforget] at hholds
    have hall : ∀ st ∈ (nextPriority font.cell s.curPriority).2 ++
        [⟨font.cell.priorityAt i, toPriority (nextPriority font.cell s.curPriority).1⟩],
        ∃ i, st.addr = font.cell.priorityAt i := by
      intro st hst
      rcases List.mem_append.mp hst with hst | hst
      · exact hforget st hst
      · rw [List.mem_singleton.mp hst]
        exact ⟨i, rfl⟩
    refine ⟨hi, (chOf_priorities hall i).trans hholds, h.priorities hall, fun k => ?_⟩
    exact (h.priorities fun st hst => hall st (List.mem_of_mem_take hst)).unique
  · obtain ⟨hi, hmiss, -⟩ := lookup_miss hlookup
    obtain ⟨glyph', hr', hfits⟩ := hrender ch hch
    obtain rfl : glyph' = glyph := Option.some.inj (hr'.symm.trans hr)
    have hafter := hforgot.fillEntry hi hr hfits hmiss (nextPriority font.cell s.curPriority).1
    have hmiss' : ∀ j < glyphCacheSize, font.cell.chOf s.mem j ≠ ch := fun j hj => by
      rw [← chOf_priorities hforget]
      exact hmiss j hj
    refine ⟨hi, ?_, ?_, fun k => h.unique.of_one (i := i) hmiss' fun j => ?_⟩
    · show font.cell.chOf (Store.run s.mem (_ ++ _)) i = ch
      rw [Store.run_append]
      exact fillEntry_ch hfits.drawsInside _ i ch _
    · show Coherent font render (Store.run s.mem (_ ++ _))
      rwa [Store.run_append]
    · -- a character that is not the old one has been stored
      rcases Store.run_eq_or s.mem (((nextPriority font.cell s.curPriority).2 ++ fillEntry font glyph' i ch
          (nextPriority font.cell s.curPriority).1).take k) (font.cell.entryAt j) with hsame | ⟨st, hst, haddr, hval⟩
      · exact .inl hsame
      · rcases List.mem_append.mp (List.mem_of_mem_take hst) with hst | hst
        · obtain ⟨i', hi'⟩ := hforget st hst
          have hsize := font.cell.entrySize_eq
          rw [hi'] at haddr
          have := (font.cell.entry_inj (b := 0) (by omega) (by omega) haddr).2
          omega
        · obtain ⟨rfl, hch'⟩ := fillEntry_stores_head (b := 0) hfits.drawsInside hst (by omega) haddr
          exact .inr ⟨rfl, hval.trans hch'⟩

/-- Whatever was requested, the cache is coherent. -/
theorem coherent_of_reachable (hrender : RendersFitting font render) {s : Run}
    (hs : Reachable (Run.request font render) (fun _ ch => ch ≠ 0) .initial s) :
    Coherent font render s.cache.mem := by
  refine Reachable.invariant (fun s : Run => Coherent font render s.cache.mem) hs
    (coherent_initial font render) fun s ch s' h hch hstep => ?_
  obtain ⟨a, ha, rfl⟩ := Option.map_eq_some_iff.mp hstep
  exact (serves_of_coherent hrender h hch ha).coherent

/-- **Transparency.** After every sequence of requests, a further request is served: the bitmap
it returns is the rendering of its character, and neither before it nor at any moment of it do
two entries hold the same character. -/
theorem glyphCache_transparent (hrender : RendersFitting font render) {s : Run}
    (hs : Reachable (Run.request font render) (fun _ ch => ch ≠ 0) .initial s) (hch : ch ≠ 0) :
    ∃ a glyph, getGlyph font render s.cache ch = some a ∧ render ch = some glyph ∧
      IsRendering font glyph (font.cell.bitmapOf (s.cache.after a).mem a.entry) ∧
      AtMostOnce font.cell s.cache.mem ∧ ∀ k, AtMostOnce font.cell (Store.run s.cache.mem (a.stores.take k)) := by
  have hcoherent := coherent_of_reachable hrender hs
  obtain ⟨glyph, hr, -⟩ := hrender ch hch
  obtain ⟨a, ha⟩ := exists_getGlyph font s.cache hr
  obtain ⟨hlt, hholds, hafter, hmoments⟩ := serves_of_coherent hrender hcoherent hch ha
  obtain ⟨glyph', hr', hrendering⟩ := hafter.rendered a.entry hlt (hholds ▸ hch)
  rw [hholds] at hr'
  exact ⟨a, glyph', ha, hr', hrendering, hcoherent.unique, hmoments⟩

/-! ### A character that was replaced -/

theorem rendersFitting_dot : RendersFitting smallFont fun _ => some dot :=
  fun _ _ => ⟨dot, rfl, .inr (.inr (by decide))⟩

/-- One request after the other. -/
def Run.requests (font : Font) (render : Word → Option Glyph) (s : Run) (chs : List Word) : Option Run :=
  chs.foldlM (Run.request font render) s

theorem exists_requests (hrender : RendersFitting font render) {s : Run} {chs : List Word}
    (hs : Reachable (Run.request font render) (fun _ ch => ch ≠ 0) .initial s) (hchs : ∀ ch ∈ chs, ch ≠ 0) :
    ∃ s', s.requests font render chs = some s' ∧
      Reachable (Run.request font render) (fun _ ch => ch ≠ 0) .initial s' := by
  induction chs generalizing s with
  | nil => exact ⟨s, rfl, hs⟩
  | cons ch chs ih =>
    have hch := hchs ch List.mem_cons_self
    obtain ⟨glyph, hr, -⟩ := hrender ch hch
    obtain ⟨a, ha⟩ := exists_getGlyph font s.cache hr
    have hstep : s.request font render ch = some ⟨s.cache.after a, a.entry :: s.remembered⟩ := by
      rw [Run.request, ha]
      rfl
    obtain ⟨s', hrun, hs'⟩ := ih (hs.step hch hstep) fun c hc => hchs c (List.mem_cons_of_mem _ hc)
    refine ⟨s', ?_, hs'⟩
    rw [Run.requests, List.foldlM_cons, hstep]
    exact hrun

/-- The character that was requested last is in the cache. -/
theorem requests_last (hrender : RendersFitting font render) {s s' : Run} {chs : List Word}
    (hs : Reachable (Run.request font render) (fun _ ch => ch ≠ 0) .initial s) (hchs : ∀ c ∈ chs, c ≠ 0) (hch : ch ≠ 0)
    (hrun : s.requests font render (chs ++ [ch]) = some s') : ∃ j < glyphCacheSize, font.cell.chOf s'.cache.mem j = ch := by
  obtain ⟨u, hu, hreach⟩ := exists_requests hrender hs hchs
  have hstep : u.request font render ch = some s' := by
    rw [Run.requests, List.foldlM_append] at hrun
    rw [Run.requests] at hu
    rw [hu] at hrun
    simpa using hrun
  obtain ⟨a, ha, rfl⟩ := Option.map_eq_some_iff.mp hstep
  have hserves := serves_of_coherent hrender (coherent_of_reachable hrender hreach) hch ha
  exact ⟨a.entry, hserves.entry_lt, hserves.holds⟩

/-- One character more than there are entries. -/
def characters : List Word := (List.range (glyphCacheSize + 1)).map fun k => BitVec.ofNat 32 (k + 1)

theorem characters_ne_zero (hch : ch ∈ characters) : ch ≠ 0 := by
  obtain ⟨k, hk, rfl⟩ := List.mem_map.mp hch
  rw [List.mem_range, glyphCacheSize] at hk
  intro hzero
  have hmod : (k + 1) % 2 ^ 32 = 0 := congrArg BitVec.toNat hzero
  omega

/-- The entries do not hold all of them. -/
theorem exists_absent (cell : Cell) (m : Nat → Word) : ∃ ch ∈ characters, ∀ j < glyphCacheSize, cell.chOf m j ≠ ch := by
  by_contra hall
  have hheld : ∀ k ∈ Finset.range (glyphCacheSize + 1),
      BitVec.ofNat 32 (k + 1) ∈ (Finset.range glyphCacheSize).image (cell.chOf m) := by
    intro k hk
    by_contra hno
    refine hall ⟨_, List.mem_map.mpr ⟨k, List.mem_range.mpr (Finset.mem_range.mp hk), rfl⟩, fun j hj heq => hno ?_⟩
    exact Finset.mem_image.mpr ⟨j, Finset.mem_range.mpr hj, heq⟩
  have hinj : Set.InjOn (fun k => BitVec.ofNat 32 (k + 1)) (Finset.range (glyphCacheSize + 1)) := by
    intro k hk k' hk' heq
    have := congrArg BitVec.toNat heq
    simp only [Finset.coe_range, Set.mem_Iio, glyphCacheSize, BitVec.toNat_ofNat] at hk hk' this
    omega
  have hle := (Finset.card_le_card_of_injOn _ hheld hinj).trans Finset.card_image_le
  simp only [Finset.card_range] at hle
  omega

/-- All characters are requested, the last one once more, which is a hit; one of the others has been
replaced, and is requested again. -/
theorem glyphCache_transparent_dot : ∃ s₁ s ch a glyph,
    Run.initial.requests smallFont (fun _ => some dot) characters = some s₁ ∧
    (∃ j < glyphCacheSize, smallFont.cell.chOf s₁.cache.mem j = 101) ∧
    s₁.requests smallFont (fun _ => some dot) [101] = some s ∧
    (ch ∈ characters ∧ ∀ j < glyphCacheSize, smallFont.cell.chOf s.cache.mem j ≠ ch) ∧
    getGlyph smallFont (fun _ => some dot) s.cache ch = some a ∧ some dot = some glyph ∧
      IsRendering smallFont glyph (smallFont.cell.bitmapOf (s.cache.after a).mem a.entry) ∧
      AtMostOnce smallFont.cell s.cache.mem ∧
      ∀ k, AtMostOnce smallFont.cell (Store.run s.cache.mem (a.stores.take k)) := by
  have hrender := rendersFitting_dot
  obtain ⟨s₁, hrun₁, hs₁⟩ := exists_requests hrender .start fun ch => characters_ne_zero
  obtain ⟨s, hrun, hs⟩ := exists_requests hrender hs₁ (by simp : ∀ ch ∈ [(101 : Word)], ch ≠ 0)
  obtain ⟨ch, hch, habsent⟩ := exists_absent smallFont.cell s.cache.mem
  obtain ⟨a, glyph, h⟩ := glyphCache_transparent hrender hs (characters_ne_zero hch)
  have hsplit : characters = (List.range glyphCacheSize).map (fun k => BitVec.ofNat 32 (k + 1)) ++ [101] := by
    rw [characters, List.range_succ, List.map_append]
    rfl
  have hheld : ∃ j < glyphCacheSize, smallFont.cell.chOf s₁.cache.mem j = 101 := by
    rw [hsplit] at hrun₁
    refine requests_last hrender .start (fun c hc => characters_ne_zero ?_) (by decide) hrun₁
    rw [hsplit]
    exact List.mem_append_left _ hc
  exact ⟨s₁, s, ch, a, glyph, hrun₁, hheld, hrun, ⟨hch, habsent⟩, h⟩

end KoalemOS.Graphics
