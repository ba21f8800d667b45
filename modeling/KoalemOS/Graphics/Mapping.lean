import KoalemOS.Graphics.Cursor

/-!
# The mapping of the framebuffer (`src/kernel/graphics.c`)

`init_graphics` asks for a mapping of `hres*vres*4 - 1` bytes, while the lines of the framebuffer
have `width` pixels and `fill_screen` fills all of them. What is drawn needs the first
`vres*width*4` bytes (`writesBelow_iff`): always one more than was asked for, and more than that
when the lines are padded.
-/

namespace KoalemOS.Graphics

open KoalemOS.Library

/-! ## The code -/

/-- `gop_framebuffer_info`, with lines that hold the visible pixels and a size that fits in 32
bits. -/
structure GopFramebufferInfo where
  hres : Nat
  vres : Nat
  width : Nat
  hres_pos : 1 ≤ hres
  vres_pos : 1 ≤ vres
  hres_le : hres ≤ width
  fits : vres * width * 4 < 2 ^ 32

/-- `init_graphics`: the size it asks `create_virt_mapping` to map. -/
def mappedSize (info : GopFramebufferInfo) : Nat := u32 (info.hres * info.vres * 4 - 1)

/-- The stores of the loops of `fill_screen`; the index of a pixel is computed with 64 bits. -/
def fillScreenStores (info : GopFramebufferInfo) (col : Word) : List (Store Word) :=
  Store.grid info.vres info.width fun x y => ⟨y * info.width + x, col⟩

/-- The framebuffer that `__print_char` draws on is the one that is described. -/
structure Describes (info : GopFramebufferInfo) (g : Framebuffer) : Prop where
  hres : g.hres = info.hres
  vres : g.vres = info.vres
  width : g.width = info.width

/-! ## What is written -/

/-- The four bytes of every pixel written are among the first `n` of the framebuffer. -/
def BytesBelow (n : Nat) (ss : List (Store Word)) : Prop := ∀ st ∈ ss, ∀ i < 4, st.addr * 4 + i < n

/-- `fill_screen`, and `__print_char` at a cursor on the screen, write only the first `n` bytes. -/
structure WritesBelow (info : GopFramebufferInfo) (n : Nat) : Prop where
  fill : ∀ col, BytesBelow n (fillScreenStores info col)
  glyph : ∀ g, Describes info g → ∀ c, InView g.toScreen c → ∀ bm, BytesBelow n (copyGlyph g c bm)

variable {info : GopFramebufferInfo} {n : Nat}

/-- A pixel of a line of the framebuffer is before its end. -/
theorem pixel_lt {width vres x y : Nat} (hx : x < width) (hy : y < vres) : y * width + x < vres * width := by
  have hle : (y + 1) * width ≤ vres * width := Nat.mul_le_mul_right _ hy
  rw [Nat.add_mul, Nat.one_mul] at hle
  omega

theorem bytesBelow_fillScreenStores (col : Word) :
    BytesBelow (info.vres * info.width * 4) (fillScreenStores info col) := by
  intro st hst i hi
  obtain ⟨x, hx, y, hy, rfl⟩ := Store.mem_grid.mp hst
  have := pixel_lt hx hy
  dsimp only
  omega

theorem bytesBelow_copyGlyph {g : Framebuffer} {c : Cursor} (hg : Describes info g) (hc : InView g.toScreen c)
    (bm : Nat → Word) : BytesBelow (info.vres * info.width * 4) (copyGlyph g c bm) := by
  intro st hst i hi
  have hline : (c.nextY + g.advY - 1) * g.width ≤ info.vres * info.width := by
    have hbottom := hc.bottom
    rw [hg.width]
    rw [hg.vres] at hbottom
    exact Nat.mul_le_mul_right _ (by omega)
  have hfits := info.fits
  obtain ⟨x, hx, y, hy, haddr⟩ := (hc.copies (by omega)).pixels bm st hst
  have hwide := info.hres_le
  rw [hg.hres] at hx
  rw [hg.vres] at hy
  have := @pixel_lt info.width info.vres x y (by omega) hy
  rw [haddr, hg.width]
  omega

/-- The last pixel that `fill_screen` writes is the last of the last line. -/
theorem last_mem_fillScreenStores (info : GopFramebufferInfo) (col : Word) :
    (⟨info.vres * info.width - 1, col⟩ : Store Word) ∈ fillScreenStores info col := by
  have hh := info.hres_pos
  have hv := info.vres_pos
  have hw := info.hres_le
  refine Store.mem_grid.mpr ⟨info.width - 1, by omega, info.vres - 1, by omega, ?_⟩
  have hlast : (info.vres - 1) * info.width + info.width = info.vres * info.width := by
    rw [← Nat.succ_mul, Nat.succ_eq_add_one, Nat.sub_add_cancel hv]
  congr 1
  omega

/-- What is drawn needs all of the lines. -/
theorem writesBelow_iff (info : GopFramebufferInfo) (n : Nat) :
    WritesBelow info n ↔ info.vres * info.width * 4 ≤ n := by
  constructor
  · intro h
    have hlast := h.fill 0 _ (last_mem_fillScreenStores info 0) 3 (by decide)
    dsimp only at hlast
    omega
  · intro hle
    constructor
    · intro col st hst i hi
      exact Nat.lt_of_lt_of_le (bytesBelow_fillScreenStores col st hst i hi) hle
    · intro g hg c hc bm st hst i hi
      exact Nat.lt_of_lt_of_le (bytesBelow_copyGlyph hg hc bm st hst i hi) hle

/-- The size that is asked for is that of the visible pixels, less one. -/
theorem mappedSize_eq (info : GopFramebufferInfo) : mappedSize info + 1 = info.vres * info.hres * 4 := by
  have hle : info.vres * info.hres ≤ info.vres * info.width := Nat.mul_le_mul_left _ info.hres_le
  have hpos : 0 < info.vres * info.hres := Nat.mul_pos info.vres_pos info.hres_pos
  have hfits := info.fits
  have hsize : (info.hres * info.vres * 4 - 1 : Int) = ((info.vres * info.hres * 4 - 1 : Nat) : Int) := by
    rw [Nat.cast_sub (by omega)]
    push_cast
    rw [Int.mul_comm (info.vres : Int)]
  unfold mappedSize
  rw [hsize, u32_of_lt (by omega)]
  omega

/-- **The mapping of the framebuffer** never holds all that is drawn; with one byte more it would,
if and only if the lines are not padded. -/
theorem not_writesBelow_mappedSize (info : GopFramebufferInfo) :
    ¬WritesBelow info (mappedSize info) ∧ (WritesBelow info (mappedSize info + 1) ↔ info.width = info.hres) := by
  have hsize := mappedSize_eq info
  have hle : info.vres * info.hres ≤ info.vres * info.width := Nat.mul_le_mul_left _ info.hres_le
  rw [writesBelow_iff, writesBelow_iff, hsize]
  constructor
  · omega
  · constructor
    · intro h
      have heq : info.vres * info.width = info.vres * info.hres := by omega
      exact Nat.eq_of_mul_eq_mul_left info.vres_pos heq
    · intro h
      rw [h]

/-- A display of 1366 columns whose lines are padded to 1376 pixels. -/
def paddedInfo : GopFramebufferInfo where
  hres := 1366
  vres := 768
  width := 1376
  hres_pos := by decide
  vres_pos := by decide
  hres_le := by decide
  fits := by decide

/-- The last lines of the display are not mapped. -/
theorem not_writesBelow_padded : ¬∀ info, WritesBelow info (mappedSize info) := by
  intro h
  have hlast := (h paddedInfo).fill 0 _ (last_mem_fillScreenStores paddedInfo 0) 3 (by decide)
  exact absurd hlast (by decide)

end KoalemOS.Graphics
