import KoalemOS.Graphics.GlyphCache
import KoalemOS.Libc.Strtol

/-!
# The text cursor (`src/kernel/graphics.c`)

`__print_char` draws a character at the cursor and moves it. `check_charpos` looks at the lower
edge only when the cursor has left the right one, so a newline, form feed or vertical tab in
the last line takes the cursor below it. As long as no character does that, and the 32-bit sums
do not wrap around, every glyph is copied into the visible part of the framebuffer
(`copies_inView`).
-/

namespace KoalemOS.Graphics

open KoalemOS.Library Libc

/-! ## The code -/

/-- The visible screen and the cell of a character, in pixels; all of them are `uint32_t`. -/
structure Screen where
  advX : Nat
  advY : Nat
  hres : Nat
  vres : Nat
  advX_pos : 0 < advX
  advX_le : advX ≤ hres
  advY_pos : 0 < advY
  advY_le : advY ≤ vres
  hres_lt : hres < 2 ^ 32
  vres_lt : vres < 2 ^ 32

/-- A screen in its framebuffer, whose lines have `width` pixels. -/
structure Framebuffer extends Screen where
  width : Nat
  hres_le : hres ≤ width
  width_lt : width < 2 ^ 32

/-- `next_x` and `next_y` -/
structure Cursor where
  nextX : Nat
  nextY : Nat
  deriving DecidableEq

/-- `check_charpos`: where the cursor is then, and whether `fill_screen` is called. -/
def checkCharpos (g : Screen) (c : Cursor) : Cursor × Bool :=
  if u32 (c.nextX + g.advX) > g.hres then
    let nextY := u32 (c.nextY + g.advY)
    if u32 (nextY + g.advY) > g.vres then (⟨0, 0⟩, true) else (⟨0, nextY⟩, false)
  else (c, false)

/-- The `switch` for white space. -/
def moveSpace (g : Screen) (ch : Word) (c : Cursor) : Cursor :=
  if ch = 10 then ⟨0, u32 (c.nextY + g.advY)⟩
  else if ch = 13 then ⟨0, c.nextY⟩
  else if ch = 12 then ⟨c.nextX, u32 (c.nextY + g.advY * 1)⟩
  else if ch = 9 then ⟨u32 (c.nextX + g.advX * 4), c.nextY⟩
  else if ch = 11 then ⟨c.nextX, u32 (c.nextY + g.advY)⟩
  else ⟨u32 (c.nextX + g.advX), c.nextY⟩

/-- The cursor before `check_charpos`. -/
def moveCursor (g : Screen) (ch : Word) (c : Cursor) : Cursor :=
  if isspace ch.toInt then moveSpace g ch c else ⟨u32 (c.nextX + g.advX), c.nextY⟩

/-- `__print_char`: where the cursor is then, and whether `fill_screen` is called. -/
def printCharUnlocked (g : Screen) (c : Cursor) (ch : Word) : Cursor × Bool := checkCharpos g (moveCursor g ch c)

/-- `__print_char` copies the bitmap of a character that is no white space to the cursor. -/
def copyGlyph (g : Framebuffer) (c : Cursor) (bm : Nat → Word) : List (Store Word) :=
  Store.grid g.advY g.advX fun x y =>
    ⟨u32 (u32 (c.nextY + y) * g.width) + c.nextX + x, bm (u32 (y * g.advX) + x)⟩

/-- `next_x` and `next_y` before the first character. -/
def Cursor.start : Cursor := ⟨0, 0⟩

/-- One more character. -/
def printStep (g : Screen) (c : Cursor) (ch : Word) : Option Cursor := some (printCharUnlocked g c ch).1

/-! ## The visible screen -/

variable {g : Screen} {c : Cursor} {ch : Word}

/-- A glyph at the cursor is on the screen. -/
structure InView (g : Screen) (c : Cursor) : Prop where
  right : c.nextX + g.advX ≤ g.hres
  bottom : c.nextY + g.advY ≤ g.vres

theorem inView_start (g : Screen) : InView g .start := by
  have hx := g.advX_le
  have hy := g.advY_le
  constructor <;> simp only [Cursor.start] <;> omega

/-- Newline, form feed and vertical tab. -/
def IsVertical (ch : Word) : Prop := ch = 10 ∨ ch = 12 ∨ ch = 11

/-- The character leaves room: a vertical movement does not start in the last line, and the
sums of the movement and of its check fit in 32 bits. -/
structure StaysInView (g : Screen) (c : Cursor) (ch : Word) : Prop where
  room : IsVertical ch → c.nextY + 2 * g.advY ≤ g.vres
  column : (moveCursor g ch c).nextX + g.advX < 2 ^ 32
  line : g.hres < (moveCursor g ch c).nextX + g.advX → c.nextY + 2 * g.advY < 2 ^ 32

/-- White space moves the cursor down a line or leaves its line. -/
theorem moveCursor_nextY (hy : c.nextY + g.advY < 2 ^ 32) :
    (moveCursor g ch c).nextY = c.nextY ∨ IsVertical ch ∧ (moveCursor g ch c).nextY = c.nextY + g.advY := by
  have hu : u32 (c.nextY + g.advY) = c.nextY + g.advY := @u32_of_lt (c.nextY + g.advY) hy
  have hone : u32 (c.nextY + g.advY * 1) = c.nextY + g.advY := by rwa [Int.mul_one]
  unfold moveCursor moveSpace IsVertical
  split_ifs with hspace h₁ h₂ h₃ h₄ h₅
  · exact .inr ⟨.inl h₁, hu⟩
  · exact .inl rfl
  · exact .inr ⟨.inr (.inl h₃), hone⟩
  · exact .inl rfl
  · exact .inr ⟨.inr (.inr h₅), hu⟩
  · exact .inl rfl
  · exact .inl rfl

/-- A newline starts at the left edge, the other vertical movements keep the column. -/
theorem moveCursor_nextX (h : InView g c) (hch : IsVertical ch) : (moveCursor g ch c).nextX + g.advX ≤ g.hres := by
  have hx := g.advX_le
  have hright := h.right
  rcases hch with rfl | rfl | rfl
  · show 0 + g.advX ≤ g.hres
    omega
  · exact hright
  · exact hright

/-- **A character.** -/
theorem InView.printChar (h : InView g c) (hok : StaysInView g c ch) : InView g (printCharUnlocked g c ch).1 := by
  have hvres := g.vres_lt
  have hbottom := h.bottom
  have hmove := @moveCursor_nextY g c ch (by omega)
  have hcheck : u32 ((moveCursor g ch c).nextX + g.advX) = (moveCursor g ch c).nextX + g.advX :=
    @u32_of_lt ((moveCursor g ch c).nextX + g.advX) hok.column
  unfold printCharUnlocked checkCharpos
  rw [hcheck]
  by_cases hfull : (moveCursor g ch c).nextX + g.advX > g.hres
  · -- the line is full: the next one, or the first
    have hline := hok.line hfull
    have hsame : (moveCursor g ch c).nextY = c.nextY := by
      rcases hmove with hsame | ⟨hvertical, -⟩
      · exact hsame
      · have := moveCursor_nextX h hvertical
        omega
    have hnext : u32 (c.nextY + g.advY) = c.nextY + g.advY := @u32_of_lt (c.nextY + g.advY) (by omega)
    have hlast : u32 ((c.nextY + g.advY : Nat) + g.advY) = c.nextY + g.advY + g.advY :=
      @u32_of_lt (c.nextY + g.advY + g.advY) (by omega)
    have hx := g.advX_le
    have hy := g.advY_le
    rw [if_pos hfull, hsame, hnext]
    dsimp only
    rw [hlast]
    split_ifs with hfill
    · exact ⟨by dsimp only; omega, by dsimp only; omega⟩
    · exact ⟨by dsimp only; omega, by dsimp only; omega⟩
  · rw [if_neg hfull]
    refine ⟨Nat.not_lt.mp hfull, ?_⟩
    rcases hmove with hsame | ⟨hvertical, hdown⟩
    · rw [hsame]
      exact hbottom
    · have := hok.room hvertical
      rw [hdown]
      omega

/-! ## The glyphs -/

/-- A glyph is copied where it can be seen: its cell is on the screen, and every pixel written is
one of the screen. -/
structure CopiesInView (g : Framebuffer) (c : Cursor) : Prop where
  cell : InView g.toScreen c
  pixels : ∀ bm, ∀ st ∈ copyGlyph g c bm, ∃ x < g.hres, ∃ y < g.vres, st.addr = y * g.width + x

/-- The condition on a character: it leaves room, and if it is drawn, the index of its lines fits
in 32 bits. -/
structure CharOk (g : Framebuffer) (c : Cursor) (ch : Word) : Prop where
  stays : StaysInView g.toScreen c ch
  index : isspace ch.toInt = false → (c.nextY + g.advY - 1) * g.width < 2 ^ 32

theorem InView.copies {g : Framebuffer} (h : InView g.toScreen c)
    (hindex : (c.nextY + g.advY - 1) * g.width < 2 ^ 32) : CopiesInView g c := by
  refine ⟨h, fun bm st hst => ?_⟩
  obtain ⟨x, hx, y, hy, rfl⟩ := Store.mem_grid.mp hst
  obtain ⟨hright, hbottom⟩ := h
  have hvres := g.vres_lt
  have hrow : u32 (c.nextY + y) = c.nextY + y := @u32_of_lt (c.nextY + y) (by omega)
  have hle : (c.nextY + y) * g.width ≤ (c.nextY + g.advY - 1) * g.width := Nat.mul_le_mul_right _ (by omega)
  have hprod : u32 ((c.nextY + y : Nat) * g.width) = (c.nextY + y) * g.width := by
    have := @u32_of_lt ((c.nextY + y) * g.width) (by omega)
    rwa [Int.natCast_mul] at this
  refine ⟨c.nextX + x, by omega, c.nextY + y, by omega, ?_⟩
  dsimp only
  rw [hrow, hprod, Nat.add_assoc]

theorem inView_of_reachable {g : Framebuffer} (hc : Reachable (printStep g.toScreen) (CharOk g) .start c) :
    InView g.toScreen c := by
  refine Reachable.invariant (InView g.toScreen) hc (inView_start g.toScreen) fun c ch c' h hok hstep => ?_
  obtain rfl := Option.some.inj hstep
  exact h.printChar hok.stays

/-- **Text stays on the screen.** In every run whose characters meet the condition, every glyph is
copied where it can be seen. -/
theorem copies_inView {g : Framebuffer} (hc : Reachable (printStep g.toScreen) (CharOk g) .start c)
    (hok : CharOk g c ch) (hdrawn : isspace ch.toInt = false) : CopiesInView g c :=
  (inView_of_reachable hc).copies (hok.index hdrawn)

/-- A screen of eight columns and two lines. -/
def smallScreen : Framebuffer where
  advX := 8
  advY := 16
  hres := 64
  vres := 32
  advX_pos := by decide
  advX_le := by decide
  advY_pos := by decide
  advY_le := by decide
  hres_lt := by decide
  vres_lt := by decide
  width := 64
  hres_le := by decide
  width_lt := by decide

/-- In the first line every character meets the condition, in the second those that do not move down. -/
theorem charOk_smallScreen (h : InView smallScreen.toScreen c) (hroom : IsVertical ch → c.nextY = 0) :
    CharOk smallScreen c ch := by
  obtain ⟨hright, hbottom⟩ := h
  simp only [smallScreen] at hright hbottom
  have hx : (moveCursor smallScreen.toScreen ch c).nextX ≤ c.nextX + 32 := by
    unfold moveCursor moveSpace u32
    simp only [smallScreen]
    split_ifs <;> simp only <;> omega
  refine ⟨⟨fun hch => ?_, ?_, fun _ => ?_⟩, fun _ => ?_⟩
  · rw [hroom hch]
    decide
  · simp only [smallScreen] at hx ⊢
    omega
  · simp only [smallScreen]
    omega
  · simp only [smallScreen]
    omega

theorem reachable_smallScreen {c' : Cursor} (h : Reachable (printStep smallScreen.toScreen) (CharOk smallScreen) .start c)
    (hstep : printStep smallScreen.toScreen c ch = some c') (hroom : IsVertical ch → c.nextY = 0) :
    Reachable (printStep smallScreen.toScreen) (CharOk smallScreen) .start c' :=
  h.step (charOk_smallScreen (inView_of_reachable h) hroom) hstep

/-- A newline, and nine letters: the eighth fills the last line, and the ninth comes first. -/
theorem copies_inView_wrapped :
    (10 :: List.replicate 9 65).foldlM (printStep smallScreen.toScreen) .start = some ⟨8, 0⟩ ∧
      CopiesInView smallScreen ⟨8, 0⟩ := by
  refine ⟨by decide, ?_⟩
  have hletter : ∀ c : Cursor, IsVertical 65 → c.nextY = 0 := by
    intro c h
    rcases h with h | h | h <;> exact absurd h (by decide)
  have hline := reachable_smallScreen .start (show printStep smallScreen.toScreen .start 10 = some ⟨0, 16⟩ by decide)
    fun _ => rfl
  -- the letters of the second line
  have hcolumn : ∀ k < 8, Reachable (printStep smallScreen.toScreen) (CharOk smallScreen) .start ⟨8 * k, 16⟩ := by
    intro k hk
    induction k with
    | zero => exact hline
    | succ k ih =>
      have hstep : ∀ k < 7, printStep smallScreen.toScreen ⟨8 * k, 16⟩ 65 = some ⟨8 * (k + 1), 16⟩ := by decide
      exact reachable_smallScreen (ih (by omega)) (hstep k (by omega)) (hletter _)
  have htop := reachable_smallScreen (hcolumn 7 (by decide))
    (show printStep smallScreen.toScreen ⟨8 * 7, 16⟩ 65 = some ⟨0, 0⟩ by decide) (hletter _)
  have hnext := reachable_smallScreen htop
    (show printStep smallScreen.toScreen ⟨0, 0⟩ 65 = some ⟨8, 0⟩ by decide) (hletter _)
  exact copies_inView hnext (charOk_smallScreen (inView_of_reachable hnext) (hletter _)) rfl

/-- Two newlines, and a glyph is copied below the screen. -/
theorem not_copiesInView_newlines : ¬∀ (g : Framebuffer) (c : Cursor) (ch : Word),
    Reachable (printStep g.toScreen) (fun _ _ => True) .start c → isspace ch.toInt = false → CopiesInView g c := by
  intro h
  have hfirst : printStep smallScreen.toScreen .start 10 = some ⟨0, 16⟩ := by decide
  have hsecond : printStep smallScreen.toScreen ⟨0, 16⟩ 10 = some ⟨0, 32⟩ := by decide
  have hreach : Reachable (printStep smallScreen.toScreen) (fun _ _ => True) .start ⟨0, 32⟩ :=
    (Reachable.start.step trivial hfirst).step trivial hsecond
  have hbottom : 32 + 16 ≤ 32 := (h smallScreen ⟨0, 32⟩ 65 hreach rfl).cell.bottom
  omega

end KoalemOS.Graphics
