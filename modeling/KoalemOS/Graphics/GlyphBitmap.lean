import KoalemOS.Graphics.GlyphCache

/-!
# Where `get_glyph` draws

The pixels of a glyph go to places that are computed from the metrics FreeType reports, modulo
2^32 and without a check. They all lie in the bitmap of the entry exactly when the first and
the last pixel do, up to one and the same multiple of 2^32 (`writesOnlyEntry_iff`). Then the
other entries stay as they are.
-/

namespace KoalemOS.Graphics

open KoalemOS.Library

variable {font : Font} {glyph : Glyph} {m : Nat → Word} {ch : Word} {cur i j k x y : Nat}

/-! ## The place of a pixel -/

/-- The place of a pixel in the bitmap, before it is cut off to 32 bits. -/
def position (font : Font) (glyph : Glyph) (x y : Nat) : Int :=
  (font.fontHeight + y - glyph.bitmapTop) * font.cell.advX + (x + glyph.bitmapLeft)

/-- Sums and products may be cut off in between. -/
theorem u32_mul_add (a b : Int) (c : Nat) : u32 (u32 a * c + u32 b) = u32 (a * c + b) := by
  have hcast : ∀ z : Int, (u32 z : Int) = z % 2 ^ 32 := fun z => by
    unfold u32
    omega
  rw [hcast, hcast]
  unfold u32
  rw [Int.add_emod, Int.mul_emod, Int.emod_emod, Int.emod_emod, ← Int.mul_emod, ← Int.add_emod]

theorem targetIndex_eq (font : Font) (glyph : Glyph) (x y : Nat) :
    targetIndex font glyph x y = u32 (position font glyph x y) := u32_mul_add _ _ _

/-- A pixel to the right is one place further, a pixel below a row. -/
theorem position_eq (font : Font) (glyph : Glyph) (x y : Nat) :
    position font glyph x y = position font glyph 0 0 + (y * font.cell.advX : Nat) + x := by
  unfold position
  rw [show (font.fontHeight + y - glyph.bitmapTop : Int) = (font.fontHeight + (0 : Nat) - glyph.bitmapTop) + y by omega,
    Int.add_mul, Int.natCast_mul]
  omega

/-- Two places in the bitmap that are not far from each other belong to one multiple of 2^32. -/
theorem same_block {p d pixels : Int} (hd : 0 ≤ d) (hroom : pixels + d ≤ 2 ^ 32) (hp : p % 2 ^ 32 < pixels)
    (hq : (p + d) % 2 ^ 32 < pixels) : (p + d) / 2 ^ 32 = p / 2 ^ 32 := by
  omega

/-- Every pixel of the glyph has its place in the bitmap. -/
def DrawsInside (font : Font) (glyph : Glyph) : Prop :=
  ∀ x < glyph.width, ∀ y < glyph.rows, targetIndex font glyph x y < font.cell.pixels

/-- There is no pixel, or the first and the last have their places in the bitmap, up to a
multiple of 2^32. -/
def CornersInside (font : Font) (glyph : Glyph) : Prop :=
  glyph.rows = 0 ∨ glyph.width = 0 ∨ ∃ k : Int, k * 2 ^ 32 ≤ position font glyph 0 0 ∧
    position font glyph (glyph.width - 1) (glyph.rows - 1) < k * 2 ^ 32 + font.cell.pixels

theorem DrawsInside.emod_lt (h : DrawsInside font glyph) (hx : x < glyph.width) (hy : y < glyph.rows) :
    position font glyph x y % 2 ^ 32 < font.cell.pixels := by
  have hlt := h x hx y hy
  rw [targetIndex_eq, u32] at hlt
  omega

/-- The pixels of the glyph belong to one multiple of 2^32. -/
theorem DrawsInside.block (h : DrawsInside font glyph) (hx : x < glyph.width) (hy : y < glyph.rows) :
    position font glyph x y / 2 ^ 32 = position font glyph 0 0 / 2 ^ 32 := by
  have hpixels := font.cell.pixels_le
  have hadv := font.cell.advX_le
  -- down the first column, and then along the row
  induction x with
  | zero =>
    induction y with
    | zero => rfl
    | succ y ih =>
      have hstep : position font glyph 0 (y + 1) = position font glyph 0 y + font.cell.advX := by
        rw [position_eq, position_eq font glyph 0 y, Nat.add_mul, Nat.one_mul]
        omega
      have hlow := h.emod_lt hx (Nat.lt_of_succ_lt hy)
      have hhigh := h.emod_lt hx hy
      rw [hstep] at hhigh
      rw [hstep, same_block (by omega) (by omega) hlow hhigh]
      exact ih (Nat.lt_of_succ_lt hy)
  | succ x ih =>
    have hstep : position font glyph (x + 1) y = position font glyph x y + 1 := by
      rw [position_eq, position_eq font glyph x y]
      omega
    have hlow := h.emod_lt (Nat.lt_of_succ_lt hx) hy
    have hhigh := h.emod_lt hx hy
    rw [hstep] at hhigh
    rw [hstep, same_block (by omega) (by omega) hlow hhigh]
    exact ih (Nat.lt_of_succ_lt hx)

/-- The corners decide. -/
theorem drawsInside_iff (font : Font) (glyph : Glyph) : DrawsInside font glyph ↔ CornersInside font glyph := by
  have hpixels := font.cell.pixels_le
  constructor
  · intro h
    by_cases hrows : glyph.rows = 0
    · exact .inl hrows
    by_cases hwidth : glyph.width = 0
    · exact .inr (.inl hwidth)
    refine .inr (.inr ⟨position font glyph 0 0 / 2 ^ 32, by omega, ?_⟩)
    have hlast := @DrawsInside.emod_lt font glyph (glyph.width - 1) (glyph.rows - 1) h (by omega) (by omega)
    have hblock := @DrawsInside.block font glyph (glyph.width - 1) (glyph.rows - 1) h (by omega) (by omega)
    omega
  · rintro (hrows | hwidth | ⟨k, hlow, hhigh⟩) x hx y hy
    · omega
    · omega
    · -- every pixel lies between the first and the last
      have hrow : y * font.cell.advX ≤ (glyph.rows - 1) * font.cell.advX := Nat.mul_le_mul_right _ (by omega)
      rw [position_eq] at hhigh
      rw [targetIndex_eq, position_eq, u32]
      omega

/-! ## The stores -/

/-- The loops over the bitmap write pixels of the entry. -/
theorem clearBitmap_inside {s : Store Word} (hs : s ∈ clearBitmap font i) :
    ∃ k < font.cell.pixels, s.addr = font.cell.bitmapAt i k ∧ s.val = font.bgCol := by
  have hpixels := font.cell.pixels_le
  obtain ⟨x, hx, y, hy, rfl⟩ := Store.mem_grid.mp hs
  have hlt := font.cell.index_lt hx hy
  have hu : u32 (y * font.cell.advX + x) = y * font.cell.advX + x := by
    have := @u32_of_lt (y * font.cell.advX + x) (by omega)
    rwa [Int.natCast_add, Int.natCast_mul] at this
  exact ⟨y * font.cell.advX + x, hlt, by rw [hu], rfl⟩

theorem drawGlyph_inside (h : DrawsInside font glyph) {s : Store Word} (hs : s ∈ drawGlyph font glyph i) :
    ∃ k < font.cell.pixels, s.addr = font.cell.bitmapAt i k := by
  obtain ⟨x, hx, y, hy, rfl⟩ := Store.mem_grid.mp hs
  exact ⟨_, h x hx y hy, rfl⟩

/-- The loops of the rendering write pixels of the entry. -/
theorem rendering_inside (h : DrawsInside font glyph) {s : Store Word}
    (hs : s ∈ clearBitmap font i ++ drawGlyph font glyph i) : ∃ k < font.cell.pixels, s.addr = font.cell.bitmapAt i k := by
  rcases List.mem_append.mp hs with hs | hs
  · obtain ⟨k, hk, heq, -⟩ := clearBitmap_inside hs
    exact ⟨k, hk, heq⟩
  · exact drawGlyph_inside h hs

/-- Every store of the rendering is in the entry. -/
theorem fillEntry_inside (h : DrawsInside font glyph) {s : Store Word} (hs : s ∈ fillEntry font glyph i ch cur) :
    ∃ a < font.cell.entrySize, s.addr = font.cell.entryAt i + a := by
  rw [font.cell.entrySize_eq]
  rcases List.mem_append.mp hs with hs | hs
  · rcases List.mem_cons.mp hs with rfl | hs
    · exact ⟨1, by omega, rfl⟩
    · obtain rfl := List.mem_singleton.mp hs
      exact ⟨0, by omega, rfl⟩
  · obtain ⟨k, hk, heq⟩ := rendering_inside h hs
    exact ⟨2 + k, by omega, by rw [heq, Cell.bitmapAt, Nat.add_assoc]⟩

/-- What lies in another entry stays. -/
theorem fillEntry_other (h : DrawsInside font glyph) (hij : j ≠ i) {a : Nat} (ha : a < font.cell.entrySize) :
    Store.run m (fillEntry font glyph i ch cur) (font.cell.entryAt j + a) = m (font.cell.entryAt j + a) := by
  refine Store.run_other fun s hs heq => ?_
  obtain ⟨b, hb, hs⟩ := fillEntry_inside h hs
  rw [hs] at heq
  exact hij (font.cell.entry_inj hb ha heq).1.symm

/-- The rendering stores one character and one priority, those of the entry. -/
theorem fillEntry_stores_head (h : DrawsInside font glyph) {st : Store Word} {b : Nat}
    (hst : st ∈ fillEntry font glyph i ch cur) (hb : b < 2) (haddr : st.addr = font.cell.entryAt j + b) :
    j = i ∧ st.val = if b = 0 then ch else toPriority cur := by
  have hsize := font.cell.entrySize_eq
  have hoff : ∀ a < font.cell.entrySize, st.addr = font.cell.entryAt i + a → j = i ∧ b = a := fun a ha hst =>
    font.cell.entry_inj (by omega) ha (haddr.symm.trans hst)
  rcases List.mem_append.mp hst with hst | hst
  · rcases List.mem_cons.mp hst with rfl | hst
    · obtain ⟨hj, rfl⟩ := hoff 1 (by omega) rfl
      exact ⟨hj, rfl⟩
    · obtain rfl := List.mem_singleton.mp hst
      obtain ⟨hj, rfl⟩ := hoff 0 (by omega) rfl
      exact ⟨hj, rfl⟩
  · obtain ⟨k, hk, heq⟩ := rendering_inside h hst
    have := (hoff (2 + k) (by omega) (by rw [heq, Cell.bitmapAt, Nat.add_assoc])).2
    omega

theorem fillEntry_ch (h : DrawsInside font glyph) (m : Nat → Word) (i : Nat) (ch : Word) (cur : Nat) :
    font.cell.chOf (Store.run m (fillEntry font glyph i ch cur)) i = ch := by
  refine Store.run_eq_of_forall ⟨⟨font.cell.entryAt i, ch⟩, by simp [fillEntry], rfl⟩ fun st hst haddr => ?_
  exact (fillEntry_stores_head (b := 0) h hst (by omega) haddr).2

theorem fillEntry_priority (h : DrawsInside font glyph) (m : Nat → Word) (i : Nat) (ch : Word) (cur : Nat) :
    Store.run m (fillEntry font glyph i ch cur) (font.cell.priorityAt i) = toPriority cur := by
  refine Store.run_eq_of_forall ⟨⟨font.cell.priorityAt i, toPriority cur⟩, by simp [fillEntry], rfl⟩
    fun st hst haddr => ?_
  exact (fillEntry_stores_head (b := 1) h hst (by omega) haddr).2

theorem fillEntry_ch_other (h : DrawsInside font glyph) (hij : j ≠ i) :
    font.cell.chOf (Store.run m (fillEntry font glyph i ch cur)) j = font.cell.chOf m j := by
  have hsize := font.cell.entrySize_eq
  exact fillEntry_other h hij (a := 0) (by omega)

theorem fillEntry_priority_other (h : DrawsInside font glyph) (hij : j ≠ i) :
    Store.run m (fillEntry font glyph i ch cur) (font.cell.priorityAt j) = m (font.cell.priorityAt j) := by
  have hsize := font.cell.entrySize_eq
  exact fillEntry_other h hij (a := 1) (by omega)

theorem fillEntry_bitmap_other (h : DrawsInside font glyph) (hij : j ≠ i) (hk : k < font.cell.pixels) :
    Store.run m (fillEntry font glyph i ch cur) (font.cell.bitmapAt j k) = m (font.cell.bitmapAt j k) := by
  have hsize := font.cell.entrySize_eq
  have := @fillEntry_other font glyph m ch cur i j h hij (2 + k) (by omega)
  rwa [← Nat.add_assoc] at this

/-! ## Other entries -/

/-- The loops of the rendering write to the bitmap of entry `i` only, and the other entries keep
their characters, priorities and bitmaps. -/
structure WritesOnlyEntry (font : Font) (glyph : Glyph) (m : Nat → Word) (i : Nat) (ch : Word) (cur : Nat) :
    Prop where
  inside : ∀ s ∈ clearBitmap font i ++ drawGlyph font glyph i, ∃ k < font.cell.pixels,
    s.addr = font.cell.bitmapAt i k
  others : ∀ j ≠ i, font.cell.chOf (Store.run m (fillEntry font glyph i ch cur)) j = font.cell.chOf m j ∧
    font.cell.priorityOf (Store.run m (fillEntry font glyph i ch cur)) j = font.cell.priorityOf m j ∧
    ∀ k < font.cell.pixels, Store.run m (fillEntry font glyph i ch cur) (font.cell.bitmapAt j k) =
      m (font.cell.bitmapAt j k)

/-- **Where the glyph goes.** For all metrics: the rendering stays in the bitmap of the entry it
replaces, and leaves the other entries alone, exactly when the first and the last pixel of the
glyph have their places in the bitmap. -/
theorem writesOnlyEntry_iff (font : Font) (glyph : Glyph) (m : Nat → Word) (i : Nat) (ch : Word) (cur : Nat) :
    WritesOnlyEntry font glyph m i ch cur ↔ CornersInside font glyph := by
  rw [← drawsInside_iff]
  constructor
  · intro h x hx y hy
    have hmem : (⟨font.cell.bitmapAt i (targetIndex font glyph x y), font.bgFgLerp (glyph.gray x y)⟩ : Store Word) ∈
        drawGlyph font glyph i := Store.mem_grid.mpr ⟨x, hx, y, hy, rfl⟩
    obtain ⟨k, hk, heq⟩ := h.inside _ (List.mem_append_right _ hmem)
    rwa [Nat.add_left_cancel heq]
  · intro h
    refine ⟨fun s hs => rendering_inside h hs, fun j hij => ⟨fillEntry_ch_other h hij, ?_, fun k hk => ?_⟩⟩
    · exact congrArg BitVec.toInt (fillEntry_priority_other h hij)
    · exact fillEntry_bitmap_other h hij hk

/-- A font of 12 pixels in a cell of 8 by 16. -/
def smallFont : Font where
  cell := ⟨8, 16, by decide, by decide⟩
  fontHeight := 12
  bgCol := 0
  bgFgLerp := fun gray => BitVec.ofNat 32 (gray.toNat * 65793)

/-- A pixel in the corner of the cell. -/
def dot : Glyph := ⟨1, 1, 1, fun _ => 255, 0, 12⟩

/-- A column of five pixels below the base line. -/
def descender : Glyph := ⟨5, 1, 1, fun _ => 255, 0, 0⟩

/-- Its last pixel is the character of the next entry. -/
theorem not_writesOnlyEntry_descender : ¬∀ (font : Font) (glyph : Glyph) (m : Nat → Word) (i : Nat) (ch : Word)
    (cur : Nat), WritesOnlyEntry font glyph m i ch cur := by
  intro h
  have hmem : (⟨smallFont.cell.bitmapAt 0 128, smallFont.bgFgLerp 255⟩ : Store Word) ∈
      drawGlyph smallFont descender 0 := Store.mem_grid.mpr ⟨0, by decide, 4, by decide, rfl⟩
  obtain ⟨k, hk, heq⟩ := (h smallFont descender (fun _ => 0) 0 1 1).inside _ (List.mem_append_right _ hmem)
  have hk128 : k < 128 := hk
  have : 128 = k := Nat.add_left_cancel heq
  omega

end KoalemOS.Graphics
