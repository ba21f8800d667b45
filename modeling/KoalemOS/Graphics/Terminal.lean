import KoalemOS.Graphics.Mapping
import KoalemOS.Graphics.ScreenLock
import KoalemOS.Graphics.Transparency

/-!
# What the framebuffer shows (`src/kernel/graphics.c`)

The calls of the console with the pixels they write, and the text screen that they are for: lines and columns
of characters, a cursor, and what is behind the text. As long as the text does not leave the page, the
framebuffer shows the text screen: every cell holds the rendering of the character last printed there, whatever
the glyph cache has replaced in between, and all other pixels are as `fill_screen` left them.

- `Terminal`: the state of the console with its pixels, and the calls as the code makes them
- `TextScreen`: the text screen
- `Shows`: the pixels are those of the text screen
- `terminal_shows`: a run of calls takes the one along with the other
-/

namespace KoalemOS.Graphics

open KoalemOS.Library Libc

/-! ## The code -/

/-- What `init_graphics` sets up: a framebuffer, a font whose cell is on the screen, and FreeType. -/
structure Setup where
  info : GopFramebufferInfo
  font : Font
  render : Word → Option Glyph
  advX_pos : 0 < font.cell.advX
  advX_le : font.cell.advX ≤ info.hres
  advY_pos : 0 < font.cell.advY
  advY_le : font.cell.advY ≤ info.vres

theorem GopFramebufferInfo.width_le (info : GopFramebufferInfo) : info.width * 4 < 2 ^ 32 := by
  have hfits := info.fits
  have hle : 1 * info.width ≤ info.vres * info.width := Nat.mul_le_mul_right _ info.vres_pos
  omega

theorem GopFramebufferInfo.vres_le (info : GopFramebufferInfo) : info.vres * 4 < 2 ^ 32 := by
  have hfits := info.fits
  have hle : info.vres * 1 ≤ info.vres * info.width :=
    Nat.mul_le_mul_left _ (info.hres_pos.trans info.hres_le)
  omega

/-- The framebuffer that `__print_char` draws on. -/
def Setup.fb (p : Setup) : Framebuffer where
  advX := p.font.cell.advX
  advY := p.font.cell.advY
  hres := p.info.hres
  vres := p.info.vres
  advX_pos := p.advX_pos
  advX_le := p.advX_le
  advY_pos := p.advY_pos
  advY_le := p.advY_le
  hres_lt := by
    have := p.info.width_le
    have := p.info.hres_le
    omega
  vres_lt := by
    have := p.info.vres_le
    omega
  width := p.info.width
  hres_le := p.info.hres_le
  width_lt := by
    have := p.info.width_le
    omega

/-- What the mutex and the cache see of it. -/
def Setup.console (p : Setup) : Console := ⟨p.fb.toScreen, p.font, p.render⟩

/-- What `graphics_mutex` protects, and the pixels of the framebuffer. -/
structure Terminal where
  display : Display
  pixels : Nat → Word

namespace Terminal

/-- `fill_screen`, with the colour as a pixel -/
def fillScreen (rounds : Nat) (p : Setup) (col : Word) (t : Terminal) : Option Terminal := do
  let locked ← mtxLock rounds t.display.locked
  let pixels := Store.run t.pixels (fillScreenStores p.info col)
  return ⟨{ t.display with locked := mtxUnlock locked }, pixels⟩

/-- `__print_char` gets the glyph of a character that is no white space, and copies it to the cursor. -/
def drawChar (rounds : Nat) (p : Setup) (t : Terminal) (ch : Word) : Option Terminal :=
  if isspace ch.toInt then some t
  else
    match getGlyph p.font p.render t.display.text.cache ch with
    | none => do
      let display ← kernelPanic rounds t.display
      return ⟨display, t.pixels⟩
    | some a =>
      let cache := t.display.text.cache.after a
      some ⟨⟨t.display.locked, ⟨t.display.text.cursor, cache⟩⟩,
        Store.run t.pixels (copyGlyph p.fb t.display.text.cursor (p.font.cell.bitmapOf cache.mem a.entry))⟩

/-- `__print_char`; `bg_col`, which `check_charpos` fills the screen with, is black. -/
def printCharHeld (rounds : Nat) (p : Setup) (t : Terminal) (ch : Word) : Option Terminal := do
  let t ← t.drawChar rounds p ch
  let (cursor, fills) := printCharUnlocked p.fb.toScreen t.display.text.cursor ch
  let t : Terminal := ⟨⟨t.display.locked, ⟨cursor, t.display.text.cache⟩⟩, t.pixels⟩
  if fills then t.fillScreen rounds p 0 else some t

/-- `print_char` -/
def printChar (rounds : Nat) (p : Setup) (t : Terminal) (ch : Word) : Option Terminal := do
  let locked ← mtxLock rounds t.display.locked
  let t ← printCharHeld rounds p { t with display := { t.display with locked } } ch
  return { t with display := { t.display with locked := mtxUnlock t.display.locked } }

/-- `while(*str) __print_char(*str++);` -/
def printLoop (rounds : Nat) (p : Setup) : Terminal → List Word → Option Terminal
  | t, [] => some t
  | t, ch :: str =>
    if ch = 0 then some t
    else do
      let t ← t.printCharHeld rounds p ch
      printLoop rounds p t str

/-- `print_str` -/
def printStr (rounds : Nat) (p : Setup) (t : Terminal) (str : List Word) : Option Terminal := do
  let locked ← mtxLock rounds t.display.locked
  let t ← printLoop rounds p { t with display := { t.display with locked } } str
  return { t with display := { t.display with locked := mtxUnlock t.display.locked } }

/-- A call from outside. -/
inductive Call where
  | printChar (ch : Word)
  | printStr (str : List Word)
  | fillScreen (col : Word)

/-- What a call does. -/
def call (rounds : Nat) (p : Setup) (t : Terminal) : Call → Option Terminal
  | .printChar ch => t.printChar rounds p ch
  | .printStr str => t.printStr rounds p str
  | .fillScreen col => t.fillScreen rounds p col

/-- A row of calls. -/
def run (rounds : Nat) (p : Setup) : List Call → Terminal → Option Terminal
  | [], t => some t
  | c :: calls, t => do
    let t ← t.call rounds p c
    run rounds p calls t

/-- The terminal before the first call. -/
def start (pixels : Nat → Word) : Terminal := ⟨.start, pixels⟩

/-- The call without its colour. -/
def Call.forget : Call → Graphics.Call
  | .printChar ch => .printChar ch
  | .printStr str => .printStr str
  | .fillScreen _ => .fillScreen

end Terminal

/-! ### Without the pixels -/

section Forget

variable {p : Setup} {t : Terminal} {ch : Word} {str : List Word} {rounds : Nat}

theorem Terminal.fillScreen_display (col : Word) :
    (t.fillScreen rounds p col).map Terminal.display = Graphics.fillScreen rounds t.display := by
  unfold Terminal.fillScreen Graphics.fillScreen
  cases mtxLock rounds t.display.locked <;> rfl

theorem Terminal.drawChar_display :
    (t.drawChar rounds p ch).map Terminal.display = fetchGlyph rounds p.console t.display ch := by
  unfold Terminal.drawChar fetchGlyph
  split_ifs with hspace
  · rfl
  · show Option.map _ (match getGlyph p.font p.render t.display.text.cache ch with | none => _ | some a => _) =
      match getGlyph p.font p.render t.display.text.cache ch with | none => _ | some a => _
    cases getGlyph p.font p.render t.display.text.cache ch with
    | none =>
      dsimp only
      cases kernelPanic rounds t.display <;> rfl
    | some a => rfl

/-- What is drawn does not decide how a character ends. -/
theorem Terminal.printCharHeld_display :
    (t.printCharHeld rounds p ch).map Terminal.display = Graphics.printCharHeld rounds p.console t.display ch := by
  unfold Terminal.printCharHeld Graphics.printCharHeld
  rw [← drawChar_display]
  cases t.drawChar rounds p ch with
  | none => rfl
  | some t₁ =>
    show Option.map _ (if (printCharUnlocked p.fb.toScreen t₁.display.text.cursor ch).2 then _ else _) =
      if (printCharUnlocked p.fb.toScreen t₁.display.text.cursor ch).2 then _ else _
    split_ifs
    · exact fillScreen_display 0
    · rfl

theorem Terminal.printLoop_display :
    (printLoop rounds p t str).map Terminal.display = Graphics.printLoop rounds p.console t.display str := by
  induction str generalizing t with
  | nil => rfl
  | cons ch str ih =>
    unfold Terminal.printLoop Graphics.printLoop
    split_ifs with hend
    · rfl
    · rw [← printCharHeld_display]
      cases t.printCharHeld rounds p ch with
      | none => rfl
      | some t₁ => exact ih

/-- The calls without the pixels are those of the mutex and the cache. -/
theorem Terminal.call_display {c : Call} :
    (t.call rounds p c).map Terminal.display = c.forget.run rounds p.console t.display := by
  cases c with
  | printChar ch =>
    simp only [Terminal.call, Call.forget, Graphics.Call.run, Terminal.printChar, Graphics.printChar]
    cases mtxLock rounds t.display.locked with
    | none => rfl
    | some locked =>
      dsimp only [Option.bind_eq_bind, Option.bind_some]
      have hheld := @printCharHeld_display p { t with display := { t.display with locked } } ch rounds
      dsimp only at hheld
      rw [← hheld]
      cases printCharHeld rounds p { t with display := { t.display with locked } } ch <;> rfl
  | printStr str =>
    simp only [Terminal.call, Call.forget, Graphics.Call.run, Terminal.printStr, Graphics.printStr]
    cases mtxLock rounds t.display.locked with
    | none => rfl
    | some locked =>
      dsimp only [Option.bind_eq_bind, Option.bind_some]
      have hloop := @printLoop_display p { t with display := { t.display with locked } } str rounds
      dsimp only at hloop
      rw [← hloop]
      cases printLoop rounds p { t with display := { t.display with locked } } str <;> rfl
  | fillScreen col => exact fillScreen_display col

end Forget

/-! ## The text screen -/

/-- A text screen: the cursor, the characters in the cells, and the picture behind the text. -/
structure TextScreen where
  row : Nat
  col : Nat
  shows : Nat → Nat → Option Word
  ground : Nat → Nat → Word

namespace TextScreen

variable (rows cols : Nat)

/-- A line down. The page ends below the last line. -/
def down (T : TextScreen) : Option TextScreen := if T.row < rows then some { T with row := T.row + 1 } else none

/-- White space moves the cursor. -/
def space (T : TextScreen) (ch : Word) : Option TextScreen :=
  if ch = 10 then down rows { T with col := 0 }
  else if ch = 13 then some { T with col := 0 }
  else if ch = 12 then T.down rows
  else if ch = 9 then some { T with col := T.col + 4 }
  else if ch = 11 then T.down rows
  else some { T with col := T.col + 1 }

/-- A character is put at the cursor. -/
def put (T : TextScreen) (ch : Word) : Option TextScreen :=
  if T.row < rows then
    some { T with
      col := T.col + 1
      shows := fun r c => if r = T.row ∧ c = T.col then some ch else T.shows r c }
  else none

/-- A full line is followed by the next one, if there is one. -/
def wrap (T : TextScreen) : Option TextScreen :=
  if T.col < cols then some T
  else if T.row + 1 < rows then some { T with row := T.row + 1, col := 0 }
  else none

/-- A character. -/
def print (T : TextScreen) (ch : Word) : Option TextScreen :=
  (if isspace ch.toInt then T.space rows ch else T.put rows ch).bind (wrap rows cols)

/-- A text up to its end. -/
def printAll : TextScreen → List Word → Option TextScreen
  | T, [] => some T
  | T, ch :: str =>
    if ch = 0 then some T
    else do
      let T ← T.print rows cols ch
      printAll T str

/-- The screen in one colour; the cursor stays. -/
def fill (T : TextScreen) (col : Word) : TextScreen := { T with shows := fun _ _ => none, ground := fun _ _ => col }

/-- What a call of the console does; the terminating 0 is no character. -/
def call (T : TextScreen) : Terminal.Call → Option TextScreen
  | .printChar ch => if ch = 0 then none else T.print rows cols ch
  | .printStr str => T.printAll rows cols str
  | .fillScreen col => some (T.fill col)

/-- A row of calls. -/
def run : List Terminal.Call → TextScreen → Option TextScreen
  | [], T => some T
  | c :: calls, T => do
    let T ← T.call rows cols c
    run calls T

/-- No text yet. -/
def start (ground : Nat → Nat → Word) : TextScreen := ⟨0, 0, fun _ _ => none, ground⟩

end TextScreen

/-- The pixel of a rendering: that of the glyph, or the background colour. -/
def Glyph.pixel (font : Font) (glyph : Glyph) (x y : Nat) : Word :=
  let x' : Int := x - glyph.bitmapLeft
  let y' : Int := y - (font.fontHeight - glyph.bitmapTop)
  if (0 ≤ x' ∧ x' < glyph.width) ∧ 0 ≤ y' ∧ y' < glyph.rows then font.bgFgLerp (glyph.gray x'.toNat y'.toNat)
  else font.bgCol

/-- The lines on the screen. -/
def Setup.rows (p : Setup) : Nat := p.info.vres / p.font.cell.advY

/-- The columns on the screen. -/
def Setup.cols (p : Setup) : Nat := p.info.hres / p.font.cell.advX

/-- A pixel of the text screen. -/
def TextScreen.pixel (p : Setup) (T : TextScreen) (x y : Nat) : Word :=
  match T.shows (y / p.font.cell.advY) (x / p.font.cell.advX) with
  | none => T.ground x y
  | some ch => (p.render ch).elim p.font.bgCol fun glyph =>
    glyph.pixel p.font (x % p.font.cell.advX) (y % p.font.cell.advY)

/-- The framebuffer shows the text screen, and its memory ends with the last line. -/
structure Shows (p : Setup) (rest : Nat → Word) (t : Terminal) (T : TextScreen) : Prop where
  cursor : t.display.text.cursor = ⟨T.col * p.font.cell.advX, T.row * p.font.cell.advY⟩
  col_lt : T.col < p.cols
  row_le : T.row ≤ p.rows
  cache : Coherent p.font p.render t.display.text.cache.mem
  pixels : ∀ x < p.info.width, ∀ y < p.info.vres, t.pixels (y * p.info.width + x) = T.pixel p x y
  outside : ∀ a, p.info.vres * p.info.width ≤ a → t.pixels a = rest a

/-! ## Pixels -/

section Pixels

variable {p : Setup} {font : Font} {glyph : Glyph} {b : Nat → Word} {m : Nat → Word} {c : Cursor} {col : Word}
  {x y x' y' w : Nat}

/-- The pixel of a rendering does not depend on the glyph cache. -/
theorem IsRendering.pixel (h : IsRendering font glyph b) (hx : x < font.cell.advX) (hy : y < font.cell.advY) :
    b (y * font.cell.advX + x) = glyph.pixel font x y := by
  obtain ⟨hcovered, hbare⟩ := h x hx y hy
  unfold Glyph.pixel
  dsimp only
  split_ifs with hin
  · apply hcovered
    refine ⟨?_, ?_, ?_, ?_⟩ <;> omega
  · apply hbare
    rintro x' y' ⟨hx', hy', hxeq, hyeq⟩
    apply hin
    omega

/-- Two pixels of lines of `w` pixels are at one address only if they are the same. -/
theorem pixel_inj (hx : x < w) (hx' : x' < w) (h : y * w + x = y' * w + x') : x = x' ∧ y = y' := by
  have hmod := congrArg (· % w) h
  have hdiv := congrArg (· / w) h
  have hw : 0 < w := by omega
  simp only [Nat.mul_add_mod', Nat.mod_eq_of_lt hx, Nat.mod_eq_of_lt hx'] at hmod
  simp only [Nat.mul_comm _ w, Nat.mul_add_div hw, Nat.div_eq_of_lt hx, Nat.div_eq_of_lt hx', Nat.add_zero] at hdiv
  exact ⟨hmod, hdiv⟩

/-- `fill_screen` fills every pixel. -/
theorem run_fillScreenStores (hx : x < p.info.width) (hy : y < p.info.vres) :
    Store.run m (fillScreenStores p.info col) (y * p.info.width + x) = col := by
  apply Store.run_eq_of_forall
  · exact ⟨_, Store.mem_grid.mpr ⟨x, hx, y, hy, rfl⟩, rfl⟩
  · intro st hst _
    obtain ⟨_, _, _, _, rfl⟩ := Store.mem_grid.mp hst
    rfl

/-- `fill_screen` writes nothing behind the last line. -/
theorem run_fillScreenStores_outside {a : Nat} (ha : p.info.vres * p.info.width ≤ a) :
    Store.run m (fillScreenStores p.info col) a = m a := by
  apply Store.run_other
  intro st hst haddr
  obtain ⟨u, hu, v, hv, rfl⟩ := Store.mem_grid.mp hst
  have := pixel_lt hu hv
  dsimp only at haddr
  omega

/-- The pixels that `__print_char` writes, for a cursor on the screen. -/
theorem copyGlyph_eq (hc : InView p.fb.toScreen c) :
    copyGlyph p.fb c b = Store.grid p.font.cell.advY p.font.cell.advX fun u v =>
      ⟨(c.nextY + v) * p.info.width + (c.nextX + u), b (v * p.font.cell.advX + u)⟩ := by
  unfold copyGlyph Store.grid
  refine List.flatMap_congr fun v hv => List.map_congr_left fun u hu => ?_
  have hv' : v < p.font.cell.advY := List.mem_range.mp hv
  have hright : c.nextX + p.font.cell.advX ≤ p.info.hres := hc.right
  have hbottom : c.nextY + p.font.cell.advY ≤ p.info.vres := hc.bottom
  have hfits := p.info.fits
  have hvres := p.info.vres_le
  have hpixels := p.font.cell.pixels_le
  have hline : (c.nextY + v) * p.info.width ≤ p.info.vres * p.info.width :=
    Nat.mul_le_mul_right _ (by omega)
  have hcell : v * p.font.cell.advX ≤ p.font.cell.pixels := by
    rw [Cell.pixels, Nat.mul_comm p.font.cell.advX]
    exact Nat.mul_le_mul_right _ hv'.le
  have hrow : u32 (c.nextY + v) = c.nextY + v := @u32_of_lt (c.nextY + v) (by omega)
  have hstart := @u32_of_lt ((c.nextY + v) * p.info.width) (by omega)
  have hfrom := @u32_of_lt (v * p.font.cell.advX) (by omega)
  rw [Int.natCast_mul] at hstart hfrom
  show (⟨u32 (u32 (c.nextY + v) * p.info.width) + c.nextX + u, b (u32 (v * p.font.cell.advX) + u)⟩ : Store Word) = _
  rw [hrow, hstart, hfrom, Nat.add_assoc]

/-- A pixel in the cell at the cursor is that of the bitmap, all others stay. -/
theorem run_copyGlyph (hc : InView p.fb.toScreen c) (hx : x < p.info.width) :
    Store.run m (copyGlyph p.fb c b) (y * p.info.width + x) =
      if (c.nextX ≤ x ∧ x < c.nextX + p.font.cell.advX) ∧ c.nextY ≤ y ∧ y < c.nextY + p.font.cell.advY then
        b ((y - c.nextY) * p.font.cell.advX + (x - c.nextX))
      else m (y * p.info.width + x) := by
  have hright : c.nextX + p.font.cell.advX ≤ p.info.hres := hc.right
  have hwidth := p.info.hres_le
  rw [copyGlyph_eq hc]
  split_ifs with hin
  · apply Store.run_eq_of_forall
    · refine ⟨_, Store.mem_grid.mpr ⟨x - c.nextX, by omega, y - c.nextY, by omega, rfl⟩, ?_⟩
      dsimp only
      rw [Nat.add_sub_cancel' hin.2.1, Nat.add_sub_cancel' hin.1.1]
    · intro st hst haddr
      obtain ⟨u, hu, v, hv, rfl⟩ := Store.mem_grid.mp hst
      obtain ⟨rfl, rfl⟩ := pixel_inj (by omega) hx haddr
      simp
  · apply Store.run_other
    intro st hst haddr
    obtain ⟨u, hu, v, hv, rfl⟩ := Store.mem_grid.mp hst
    obtain ⟨rfl, rfl⟩ := pixel_inj (by omega) hx haddr
    omega

/-- `__print_char` writes nothing behind the last line. -/
theorem run_copyGlyph_outside (hc : InView p.fb.toScreen c) {a : Nat} (ha : p.info.vres * p.info.width ≤ a) :
    Store.run m (copyGlyph p.fb c b) a = m a := by
  have hright : c.nextX + p.font.cell.advX ≤ p.info.hres := hc.right
  have hbottom : c.nextY + p.font.cell.advY ≤ p.info.vres := hc.bottom
  have hwidth := p.info.hres_le
  rw [copyGlyph_eq hc]
  apply Store.run_other
  intro st hst haddr
  obtain ⟨u, hu, v, hv, rfl⟩ := Store.mem_grid.mp hst
  have := @pixel_lt p.info.width p.info.vres (c.nextX + u) (c.nextY + v) (by omega) (by omega)
  dsimp only at haddr
  omega

end Pixels

/-! ## The cursor -/

section Cursor

variable {p : Setup} {T T' : TextScreen} {ch : Word}

theorem Setup.lt_rows {p : Setup} {n : Nat} : n < p.rows ↔ (n + 1) * p.font.cell.advY ≤ p.info.vres :=
  Nat.le_div_iff_mul_le p.advY_pos

theorem Setup.lt_cols {p : Setup} {n : Nat} : n < p.cols ↔ (n + 1) * p.font.cell.advX ≤ p.info.hres :=
  Nat.le_div_iff_mul_le p.advX_pos

theorem Setup.cols_le {p : Setup} : p.cols * p.font.cell.advX ≤ p.info.hres := Nat.div_mul_le_self _ _

theorem Setup.rows_le {p : Setup} : p.rows * p.font.cell.advY ≤ p.info.vres := Nat.div_mul_le_self _ _

/-- The pixel where the cell of the cursor starts. -/
def TextScreen.cursor (p : Setup) (T : TextScreen) : Cursor := ⟨T.col * p.font.cell.advX, T.row * p.font.cell.advY⟩

theorem TextScreen.inView (hcol : T.col < p.cols) (hrow : T.row < p.rows) : InView p.fb.toScreen (T.cursor p) := by
  constructor
  · have := Setup.lt_cols.mp hcol
    rwa [Nat.add_mul, Nat.one_mul] at this
  · have := Setup.lt_rows.mp hrow
    rwa [Nat.add_mul, Nat.one_mul] at this

theorem u32_add {a b : Nat} (h : a + b < 2 ^ 32) : u32 ((a : Int) + b) = a + b := by
  rw [← Int.natCast_add]
  exact u32_of_lt h

/-- `check_charpos` where the sums fit in 32 bits -/
theorem checkCharpos_eq {g : Screen} {c : Cursor} (hx : c.nextX + g.advX < 2 ^ 32)
    (hy : c.nextY + 2 * g.advY < 2 ^ 32) :
    checkCharpos g c =
      if c.nextX + g.advX ≤ g.hres then (c, false)
      else if c.nextY + 2 * g.advY ≤ g.vres then (⟨0, c.nextY + g.advY⟩, false)
      else (⟨0, 0⟩, true) := by
  unfold checkCharpos
  rw [u32_add hx, u32_add (a := c.nextY) (by omega)]
  dsimp only
  rw [u32_add (by omega)]
  split_ifs <;> first | rfl | omega

/-- `check_charpos`: the text does not go on from the last line. -/
theorem checkCharpos_wrap (hcol : T.col < p.cols + 4) (hrow : T.row ≤ p.rows) (h : T.wrap p.rows p.cols = some T') :
    checkCharpos p.fb.toScreen (T.cursor p) = (T'.cursor p, false) ∧ T'.col < p.cols ∧ T'.row ≤ p.rows := by
  have hcell := p.font.cell.advX_le
  have hcell' := p.font.cell.advY_le
  have hwidth := p.info.width_le
  have hvres := p.info.vres_le
  have hhres := p.info.hres_le
  have hcols := p.cols_le
  have hrows := p.rows_le
  have hmul : T.col * p.font.cell.advX ≤ (p.cols + 3) * p.font.cell.advX := Nat.mul_le_mul_right _ (by omega)
  have hmul' := Nat.mul_le_mul_right p.font.cell.advY hrow
  rw [Nat.add_mul] at hmul
  have hx : (T.cursor p).nextX + p.fb.advX < 2 ^ 32 := by
    show T.col * p.font.cell.advX + p.font.cell.advX < 2 ^ 32
    omega
  have hy : (T.cursor p).nextY + 2 * p.fb.advY < 2 ^ 32 := by
    show T.row * p.font.cell.advY + 2 * p.font.cell.advY < 2 ^ 32
    omega
  rw [checkCharpos_eq hx hy]
  unfold TextScreen.wrap at h
  split_ifs at h with hline hpage
  · obtain rfl := Option.some.inj h
    have hright : (T.cursor p).nextX + p.fb.advX ≤ p.fb.hres := by
      have hle := Setup.lt_cols.mp hline
      rwa [Nat.add_mul, Nat.one_mul] at hle
    rw [if_pos hright]
    exact ⟨rfl, hline, hrow⟩
  · obtain rfl := Option.some.inj h
    have hright : ¬(T.cursor p).nextX + p.fb.advX ≤ p.fb.hres := fun hle => hline (Setup.lt_cols.mpr (by
      rwa [Nat.add_mul, Nat.one_mul]))
    have hbottom : (T.cursor p).nextY + 2 * p.fb.advY ≤ p.fb.vres := by
      have hle := Setup.lt_rows.mp hpage
      rwa [Nat.add_assoc, Nat.add_mul] at hle
    rw [if_neg hright, if_pos hbottom]
    have hfirst : 0 < p.cols := Setup.lt_cols.mpr (by simpa using p.advX_le)
    refine ⟨?_, hfirst, hpage.le⟩
    simp [TextScreen.cursor, Nat.add_mul, Setup.fb]

/-- White space moves the cursor by whole cells. -/
theorem moveSpace_cursor (hcol : T.col < p.cols) (hrow : T.row ≤ p.rows) (h : T.space p.rows ch = some T') :
    moveSpace p.fb.toScreen ch (T.cursor p) = T'.cursor p ∧ T'.col < p.cols + 4 ∧ T'.row ≤ p.rows ∧
      T'.shows = T.shows ∧ T'.ground = T.ground := by
  have hcell := p.font.cell.advX_le
  have hcell' := p.font.cell.advY_le
  have hwidth := p.info.width_le
  have hvres := p.info.vres_le
  have hhres := p.info.hres_le
  have hright := Setup.lt_cols.mp hcol
  have hmul' := Nat.mul_le_mul_right p.font.cell.advY hrow
  have hrows := p.rows_le
  rw [Nat.add_mul] at hright
  -- one line, one column and one tab further
  have hdown : u32 ((T.cursor p).nextY + p.fb.advY) = (T.row + 1) * p.font.cell.advY := by
    rw [u32_add] <;> simp only [TextScreen.cursor, Setup.fb] <;> grind
  have hnext : u32 ((T.cursor p).nextX + p.fb.advX) = (T.col + 1) * p.font.cell.advX := by
    rw [u32_add] <;> simp only [TextScreen.cursor, Setup.fb] <;> grind
  have htab : u32 ((T.cursor p).nextX + p.fb.advX * 4) = (T.col + 4) * p.font.cell.advX := by
    have hcast : ((T.cursor p).nextX + p.fb.advX * 4 : Int) = ((T.cursor p).nextX : Int) + (p.fb.advX * 4 : Nat) := by
      simp
    rw [hcast, u32_add] <;> simp only [TextScreen.cursor, Setup.fb] <;> grind
  unfold TextScreen.space TextScreen.down at h
  unfold moveSpace
  rw [Int.mul_one, hdown, hnext, htab]
  have hzero : (⟨0, T.row * p.font.cell.advY⟩ : Cursor) = ⟨0 * p.font.cell.advX, T.row * p.font.cell.advY⟩ := by
    rw [Nat.zero_mul]
  split_ifs at h ⊢ with hnewline hroom hreturn hfeed hroom htab hvertical hroom <;> obtain rfl := Option.some.inj h
  · refine ⟨?_, ?_, hroom, rfl, rfl⟩
    · simp only [TextScreen.cursor, Nat.zero_mul]
    · dsimp only
      omega
  · refine ⟨hzero, ?_, hrow, rfl, rfl⟩
    dsimp only
    omega
  · exact ⟨rfl, by dsimp only; omega, hroom, rfl, rfl⟩
  · exact ⟨rfl, by dsimp only; omega, hrow, rfl, rfl⟩
  · exact ⟨rfl, by dsimp only; omega, hroom, rfl, rfl⟩
  · exact ⟨rfl, by dsimp only; omega, hrow, rfl, rfl⟩

end Cursor

/-! ## One character -/

section Characters

variable {p : Setup} {T T' T₁ : TextScreen} {ch : Word} {rest : Nat → Word} {t : Terminal}

/-- White space leaves the picture as it is. -/
theorem TextScreen.pixel_congr (hshows : T'.shows = T.shows) (hground : T'.ground = T.ground) (x y : Nat) :
    T'.pixel p x y = T.pixel p x y := by
  unfold TextScreen.pixel
  rw [hshows, hground]

theorem TextScreen.wrap_same (h : T.wrap p.rows p.cols = some T') : T'.shows = T.shows ∧ T'.ground = T.ground := by
  unfold TextScreen.wrap at h
  split_ifs at h <;> obtain rfl := Option.some.inj h <;> exact ⟨rfl, rfl⟩

/-- A pixel belongs to one cell. -/
theorem div_eq_iff_cell {x w n : Nat} (hw : 0 < w) : x / w = n ↔ n * w ≤ x ∧ x < n * w + w := by
  rw [Nat.div_eq_iff hw, Nat.mul_comm n]
  omega

/-- Of the picture, a character changes the cell at the cursor. -/
theorem TextScreen.pixel_put {glyph : Glyph} (hr : p.render ch = some glyph) (h : T.put p.rows ch = some T')
    (x y : Nat) :
    T'.pixel p x y =
      if ((T.cursor p).nextX ≤ x ∧ x < (T.cursor p).nextX + p.font.cell.advX) ∧
          (T.cursor p).nextY ≤ y ∧ y < (T.cursor p).nextY + p.font.cell.advY then
        glyph.pixel p.font (x - (T.cursor p).nextX) (y - (T.cursor p).nextY)
      else T.pixel p x y := by
  unfold TextScreen.put at h
  split_ifs at h with hrow
  obtain rfl := Option.some.inj h
  have hcell : ((T.cursor p).nextX ≤ x ∧ x < (T.cursor p).nextX + p.font.cell.advX) ∧
      ((T.cursor p).nextY ≤ y ∧ y < (T.cursor p).nextY + p.font.cell.advY) ↔
      y / p.font.cell.advY = T.row ∧ x / p.font.cell.advX = T.col := by
    rw [div_eq_iff_cell p.advX_pos, div_eq_iff_cell p.advY_pos, and_comm]
    rfl
  rw [if_congr hcell rfl rfl]
  unfold TextScreen.pixel
  dsimp only
  split_ifs with hin
  · have hx : x - (T.cursor p).nextX = x % p.font.cell.advX := by
      rw [Nat.mod_eq_sub_mul_div, hin.2, Nat.mul_comm]
      rfl
    have hy : y - (T.cursor p).nextY = y % p.font.cell.advY := by
      rw [Nat.mod_eq_sub_mul_div, hin.1, Nat.mul_comm]
      rfl
    dsimp only
    rw [hr, hx, hy]
    rfl
  · rfl

/-- What `__print_char` does with the cursor after the character. -/
theorem printCharUnlocked_cursor (hmove : moveCursor p.fb.toScreen ch (T.cursor p) = T₁.cursor p)
    (hcol : T₁.col < p.cols + 4) (hrow : T₁.row ≤ p.rows) (hwrap : T₁.wrap p.rows p.cols = some T') :
    printCharUnlocked p.fb.toScreen (T.cursor p) ch = (T'.cursor p, false) ∧ T'.col < p.cols ∧ T'.row ≤ p.rows := by
  unfold printCharUnlocked
  rw [hmove]
  exact checkCharpos_wrap hcol hrow hwrap

/-- The state that `__print_char` leaves when the screen is not filled. -/
theorem Terminal.printCharHeld_eq {rounds : Nat} {t₁ : Terminal} {c : Cursor}
    (hdraw : t.drawChar rounds p ch = some t₁)
    (hcheck : printCharUnlocked p.fb.toScreen t₁.display.text.cursor ch = (c, false)) :
    t.printCharHeld rounds p ch = some ⟨⟨t₁.display.locked, ⟨c, t₁.display.text.cache⟩⟩, t₁.pixels⟩ := by
  unfold Terminal.printCharHeld
  rw [hdraw]
  simp [hcheck]

/-- White space. -/
theorem Shows.space (h : Shows p rest t T) (hspace : isspace ch.toInt = true) (hT : T.space p.rows ch = some T₁)
    (hwrap : T₁.wrap p.rows p.cols = some T') (rounds : Nat) :
    ∃ t', t.printCharHeld rounds p ch = some t' ∧ t'.display.locked = t.display.locked ∧ Shows p rest t' T' := by
  obtain ⟨hmove, hcol, hrow, hshows, hground⟩ := moveSpace_cursor h.col_lt h.row_le hT
  obtain ⟨hshows', hground'⟩ := TextScreen.wrap_same hwrap
  have hmove' : moveCursor p.fb.toScreen ch (T.cursor p) = T₁.cursor p := by
    rw [moveCursor, hspace, if_pos rfl, hmove]
  obtain ⟨hcheck, hcol', hrow'⟩ := printCharUnlocked_cursor hmove' hcol hrow hwrap
  have hdraw : t.drawChar rounds p ch = some t := by
    rw [Terminal.drawChar, hspace, if_pos rfl]
  have hat : t.display.text.cursor = T.cursor p := h.cursor
  rw [← hat] at hcheck
  refine ⟨_, Terminal.printCharHeld_eq hdraw hcheck, rfl, rfl, hcol', hrow', h.cache, fun x hx y hy => ?_, h.outside⟩
  rw [TextScreen.pixel_congr (hshows'.trans hshows) (hground'.trans hground)]
  exact h.pixels x hx y hy

/-- A character with a glyph. -/
theorem Shows.put (hrender : RendersFitting p.font p.render) (h : Shows p rest t T) (hspace : isspace ch.toInt = false)
    (hch : ch ≠ 0) (hT : T.put p.rows ch = some T₁) (hwrap : T₁.wrap p.rows p.cols = some T') (rounds : Nat) :
    ∃ t', t.printCharHeld rounds p ch = some t' ∧ t'.display.locked = t.display.locked ∧ Shows p rest t' T' := by
  have hat : t.display.text.cursor = T.cursor p := h.cursor
  have hrow : T.row < p.rows ∧ T₁.row = T.row ∧ T₁.col = T.col + 1 := by
    unfold TextScreen.put at hT
    split_ifs at hT with hrow
    obtain rfl := Option.some.inj hT
    exact ⟨hrow, rfl, rfl⟩
  have hview := TextScreen.inView h.col_lt hrow.1
  -- the cache serves the glyph
  obtain ⟨glyph, hr, -⟩ := hrender ch hch
  obtain ⟨a, ha⟩ := exists_getGlyph p.font t.display.text.cache hr
  obtain ⟨hlt, hholds, hcache, -⟩ := serves_of_coherent hrender h.cache hch ha
  obtain ⟨glyph', hr', hrendering⟩ := hcache.rendered a.entry hlt (hholds ▸ hch)
  rw [hholds, hr] at hr'
  obtain rfl := Option.some.inj hr'
  -- the cursor goes on by one column
  have hright := Setup.lt_cols.mp h.col_lt
  rw [Nat.add_mul] at hright
  have hmove : moveCursor p.fb.toScreen ch (T.cursor p) = T₁.cursor p := by
    have hwidth := p.info.width_le
    have hhres := p.info.hres_le
    rw [moveCursor, hspace, if_neg (by simp), u32_add] <;>
      simp only [TextScreen.cursor, Setup.fb, hrow.2.1, hrow.2.2, Nat.add_mul, Nat.one_mul]
    omega
  obtain ⟨hcheck, hcol', hrow'⟩ :=
    printCharUnlocked_cursor hmove (by have := h.col_lt; omega) (hrow.2.1 ▸ hrow.1.le) hwrap
  have hdraw : t.drawChar rounds p ch = some ⟨⟨t.display.locked, ⟨T.cursor p, t.display.text.cache.after a⟩⟩,
      Store.run t.pixels (copyGlyph p.fb (T.cursor p)
        (p.font.cell.bitmapOf (t.display.text.cache.after a).mem a.entry))⟩ := by
    rw [Terminal.drawChar, hspace, if_neg (by simp), ha, hat]
  obtain ⟨hshows', hground'⟩ := TextScreen.wrap_same hwrap
  refine ⟨_, Terminal.printCharHeld_eq hdraw hcheck, rfl, rfl, hcol', hrow', hcache, fun x hx y hy => ?_,
    fun b hb => ?_⟩
  · dsimp only
    rw [run_copyGlyph hview hx, TextScreen.pixel_congr hshows' hground', TextScreen.pixel_put hr hT,
      h.pixels x hx y hy]
    split_ifs with hin
    · apply hrendering.pixel <;> omega
    · rfl
  · dsimp only
    rw [run_copyGlyph_outside hview hb]
    exact h.outside b hb

/-- **A character.** -/
theorem Shows.printChar (hrender : RendersFitting p.font p.render) (h : Shows p rest t T) (hch : ch ≠ 0)
    (hT : T.print p.rows p.cols ch = some T') (rounds : Nat) :
    ∃ t', t.printCharHeld rounds p ch = some t' ∧ t'.display.locked = t.display.locked ∧ Shows p rest t' T' := by
  unfold TextScreen.print at hT
  obtain ⟨T₁, hmove, hwrap⟩ := Option.bind_eq_some_iff.mp hT
  cases hspace : isspace ch.toInt with
  | true =>
    rw [hspace, if_pos rfl] at hmove
    exact h.space hspace hmove hwrap rounds
  | false =>
    rw [hspace, if_neg (by simp)] at hmove
    exact h.put hrender hspace hch hmove hwrap rounds

end Characters

/-! ## Calls -/

section Calls

variable {p : Setup} {T T' : TextScreen} {str : List Word} {rest pixels : Nat → Word} {t : Terminal}
  {rounds : Nat} {calls : List Terminal.Call}

/-- A free mutex is taken in the first round. -/
theorem mtxLock_free (hrounds : 0 < rounds) : mtxLock rounds false = some true := by
  obtain ⟨n, rfl⟩ := Nat.exists_eq_succ_of_ne_zero hrounds.ne'
  rfl

/-- The mutex is no part of the picture. -/
theorem Shows.withLocked (h : Shows p rest t T) (locked : Bool) :
    Shows p rest { t with display := { t.display with locked } } T :=
  ⟨h.cursor, h.col_lt, h.row_le, h.cache, h.pixels, h.outside⟩

/-- **A text.** -/
theorem Shows.printLoop (hrender : RendersFitting p.font p.render) (h : Shows p rest t T)
    (hT : T.printAll p.rows p.cols str = some T') (rounds : Nat) :
    ∃ t', Terminal.printLoop rounds p t str = some t' ∧ t'.display.locked = t.display.locked ∧ Shows p rest t' T' := by
  induction str generalizing t T with
  | nil =>
    obtain rfl := Option.some.inj hT
    exact ⟨t, rfl, rfl, h⟩
  | cons ch str ih =>
    unfold TextScreen.printAll at hT
    unfold Terminal.printLoop
    split_ifs at hT ⊢ with hend
    · obtain rfl := Option.some.inj hT
      exact ⟨t, rfl, rfl, h⟩
    · obtain ⟨T₁, hfirst, hothers⟩ := Option.bind_eq_some_iff.mp hT
      obtain ⟨t₁, hprint, hlocked, h₁⟩ := h.printChar hrender hend hfirst rounds
      obtain ⟨t', hloop, hlocked', h'⟩ := ih h₁ hothers
      refine ⟨t', ?_, hlocked'.trans hlocked, h'⟩
      rw [hprint]
      exact hloop

/-- `fill_screen` -/
theorem Shows.fill (h : Shows p rest t T) (col : Word) :
    Shows p rest ⟨{ t.display with locked := false }, Store.run t.pixels (fillScreenStores p.info col)⟩
      (T.fill col) := by
  refine ⟨h.cursor, h.col_lt, h.row_le, h.cache, fun x hx y hy => ?_, fun a ha => ?_⟩
  · exact run_fillScreenStores hx hy
  · exact (run_fillScreenStores_outside ha).trans (h.outside a ha)

/-- **A call.** -/
theorem Shows.call (hrender : RendersFitting p.font p.render) (hrounds : 0 < rounds) (h : Shows p rest t T)
    (hfree : t.display.locked = false) {c : Terminal.Call} (hT : T.call p.rows p.cols c = some T') :
    ∃ t', t.call rounds p c = some t' ∧ t'.display.locked = false ∧ Shows p rest t' T' := by
  have hlock := mtxLock_free hrounds
  rw [← hfree] at hlock
  cases c with
  | printChar ch =>
    simp only [TextScreen.call] at hT
    split_ifs at hT with hch
    obtain ⟨t', hprint, -, h'⟩ := (h.withLocked true).printChar hrender hch hT rounds
    refine ⟨_, ?_, rfl, h'.withLocked (mtxUnlock t'.display.locked)⟩
    simp [Terminal.call, Terminal.printChar, hlock, hprint]
  | printStr str =>
    obtain ⟨t', hprint, -, h'⟩ := (h.withLocked true).printLoop hrender hT rounds
    refine ⟨_, ?_, rfl, h'.withLocked (mtxUnlock t'.display.locked)⟩
    simp [Terminal.call, Terminal.printStr, hlock, hprint]
  | fillScreen col =>
    obtain rfl := Option.some.inj hT
    refine ⟨_, ?_, rfl, h.fill col⟩
    simp [Terminal.call, Terminal.fillScreen, hlock, mtxUnlock]

theorem Shows.run (hrender : RendersFitting p.font p.render) (hrounds : 0 < rounds) (h : Shows p rest t T)
    (hfree : t.display.locked = false) (hT : TextScreen.run p.rows p.cols calls T = some T') :
    ∃ t', Terminal.run rounds p calls t = some t' ∧ Shows p rest t' T' := by
  induction calls generalizing t T with
  | nil =>
    obtain rfl := Option.some.inj hT
    exact ⟨t, rfl, h⟩
  | cons c calls ih =>
    obtain ⟨T₁, hcall, hothers⟩ := Option.bind_eq_some_iff.mp hT
    obtain ⟨t₁, hret, hfree₁, h₁⟩ := h.call hrender hrounds hfree hcall
    obtain ⟨t', hrun, h'⟩ := ih h₁ hfree₁ hothers
    refine ⟨t', ?_, h'⟩
    rw [Terminal.run, hret]
    exact hrun

/-- The picture before the first call is what the framebuffer held. -/
theorem shows_start (p : Setup) (pixels : Nat → Word) :
    Shows p pixels (.start pixels) (.start fun x y => pixels (y * p.info.width + x)) := by
  refine ⟨?_, ?_, Nat.zero_le _, coherent_initial _ _, fun _ _ _ _ => rfl, fun _ _ => rfl⟩
  · simp [Terminal.start, TextScreen.start, Display.start, Cursor.start]
  · exact Setup.lt_cols.mpr (by simpa [TextScreen.start] using p.advX_le)

/-- **The framebuffer shows the text.** Where the text screen does not run off the page, the calls return, and
every pixel of the framebuffer is that of the text screen; nothing behind its last line is written. -/
theorem terminal_shows (hrender : RendersFitting p.font p.render) (hrounds : 0 < rounds)
    (hT : TextScreen.run p.rows p.cols calls (.start fun x y => pixels (y * p.info.width + x)) = some T) :
    ∃ t, Terminal.run rounds p calls (.start pixels) = some t ∧
      (∀ x < p.info.width, ∀ y < p.info.vres, t.pixels (y * p.info.width + x) = T.pixel p x y) ∧
      ∀ a, p.info.vres * p.info.width ≤ a → t.pixels a = pixels a := by
  obtain ⟨t, hrun, h⟩ := (shows_start p pixels).run hrender hrounds rfl hT
  exact ⟨t, hrun, h.pixels, h.outside⟩

/-- Eight columns and two lines on a screen whose lines are padded. -/
def smallSetup : Setup where
  info := ⟨64, 32, 80, by decide, by decide, by decide, by decide⟩
  font := smallFont
  render := fun _ => some dot
  advX_pos := by decide
  advX_le := by decide
  advY_pos := by decide
  advY_le := by decide

/-- A blue screen, and a character in the second line. -/
theorem terminal_shows_secondLine : ∃ t,
    Terminal.run 1 smallSetup [.fillScreen 0xFF, .printStr [9, 10, 65], .printChar 32] (.start fun _ => 0) = some t ∧
      t.pixels (16 * 80) = 0xFFFFFF ∧ t.pixels (16 * 80 + 1) = 0 ∧ t.pixels (16 * 80 + 8) = 0xFF := by
  obtain ⟨t, hrun, hpixels, -⟩ := @terminal_shows smallSetup _ (fun _ => 0) 1
    [.fillScreen 0xFF, .printStr [9, 10, 65], .printChar 32] (fun _ _ => ⟨dot, rfl, .inr (.inr (by decide))⟩)
    (by decide) rfl
  exact ⟨t, hrun, (hpixels 0 (by decide) 16 (by decide)).trans (by decide),
    (hpixels 1 (by decide) 16 (by decide)).trans (by decide), (hpixels 8 (by decide) 16 (by decide)).trans (by decide)⟩

end Calls

end KoalemOS.Graphics
