import KoalemOS.Graphics.Cursor
import KoalemOS.Graphics.GlyphBitmap

/-!
# `graphics_mutex` (`src/kernel/graphics.c`, `src/libc/threads.c`)

`print_char`, `print_str` and `fill_screen` hold `graphics_mutex`, a spin lock. `check_charpos`
calls `fill_screen` when the text has reached the end of the screen, and `get_glyph` calls
`kernel_panic`, which prints, when FreeType fails; both do so with the mutex held by the call
they belong to. So a row of calls comes to its end exactly when no character takes the cursor
beyond the last line and FreeType renders every character that is not in the cache
(`completes_iff`).

There is one processor. A spin lock that is taken runs for ever; functions take the number of
rounds it may turn and have no value (`none`) where that is not enough.
-/

namespace KoalemOS.Graphics

open KoalemOS.Library Libc

/-! ## The code -/

/-- The screen, the font and FreeType. In the code the screen and the font share `adv_x` and
`adv_y`; nothing here needs it. -/
structure Console where
  screen : Screen
  font : Font
  render : Word → Option Glyph

/-- What printing changes. -/
structure Text where
  cursor : Cursor
  cache : Cache

/-- `graphics_mutex`, and what it protects. -/
structure Display where
  locked : Bool
  text : Text

/-- `mtx_lock`: a round exchanges the value if it finds the mutex free. -/
def mtxLock : Nat → Bool → Option Bool
  | 0, _ => none
  | rounds + 1, locked => if !locked then some true else mtxLock rounds locked

/-- `mtx_unlock` -/
def mtxUnlock (_locked : Bool) : Bool := false

/-- `fill_screen` -/
def fillScreen (rounds : Nat) (d : Display) : Option Display := do
  let locked ← mtxLock rounds d.locked
  return { d with locked := mtxUnlock locked }

/-- `kernel_panic`: it calls `print_str`, which takes the mutex first, and never returns. -/
def kernelPanic (rounds : Nat) (d : Display) : Option Display := do
  let _ ← mtxLock rounds d.locked
  none

/-- `__print_char` calls `get_glyph` for a character that is no white space. -/
def fetchGlyph (rounds : Nat) (p : Console) (d : Display) (ch : Word) : Option Display :=
  if isspace ch.toInt then some d
  else
    match getGlyph p.font p.render d.text.cache ch with
    | none => kernelPanic rounds d
    | some a => some ⟨d.locked, d.text.cursor, d.text.cache.after a⟩

/-- `__print_char`; the cursor is back at the start when `check_charpos` calls `fill_screen`. -/
def printCharHeld (rounds : Nat) (p : Console) (d : Display) (ch : Word) : Option Display := do
  let d ← fetchGlyph rounds p d ch
  let (cursor, fills) := printCharUnlocked p.screen d.text.cursor ch
  if fills then fillScreen rounds ⟨d.locked, cursor, d.text.cache⟩ else some ⟨d.locked, cursor, d.text.cache⟩

/-- `print_char` -/
def printChar (rounds : Nat) (p : Console) (d : Display) (ch : Word) : Option Display := do
  let locked ← mtxLock rounds d.locked
  let d ← printCharHeld rounds p { d with locked } ch
  return { d with locked := mtxUnlock d.locked }

/-- `while(*str) __print_char(*str++);` -/
def printLoop (rounds : Nat) (p : Console) : Display → List Word → Option Display
  | d, [] => some d
  | d, ch :: str =>
    if ch = 0 then some d
    else do
      let d ← printCharHeld rounds p d ch
      printLoop rounds p d str

/-- `print_str` -/
def printStr (rounds : Nat) (p : Console) (d : Display) (str : List Word) : Option Display := do
  let locked ← mtxLock rounds d.locked
  let d ← printLoop rounds p { d with locked } str
  return { d with locked := mtxUnlock d.locked }

/-- A call from outside. -/
inductive Call where
  | printChar (ch : Word)
  | printStr (str : List Word)
  | fillScreen

/-- What a call does. -/
def Call.run (rounds : Nat) (p : Console) (d : Display) : Call → Option Display
  | .printChar ch => Graphics.printChar rounds p d ch
  | .printStr str => Graphics.printStr rounds p d str
  | .fillScreen => Graphics.fillScreen rounds d

/-- The display before the first call. -/
def Display.start : Display := ⟨false, .start, .initial⟩

/-! ## The lock -/

variable {p : Console} {d d' : Display} {c : Cursor} {t : Text} {s : Cache} {ch : Word} {str : List Word}

/-- Who takes a mutex that is taken waits for ever. -/
theorem mtxLock_locked (rounds : Nat) : mtxLock rounds true = none := by
  induction rounds with
  | zero => rfl
  | succ rounds ih => exact ih

theorem fillScreen_locked (rounds : Nat) (t : Text) : fillScreen rounds ⟨true, t⟩ = none := by
  rw [fillScreen, mtxLock_locked]
  rfl

theorem kernelPanic_locked (rounds : Nat) (t : Text) : kernelPanic rounds ⟨true, t⟩ = none := by
  rw [kernelPanic, mtxLock_locked]
  rfl

/-! ## Characters -/

/-- The character takes the cursor beyond the last line. -/
def FillsScreen (g : Screen) (c : Cursor) (ch : Word) : Prop :=
  g.hres < u32 ((moveCursor g ch c).nextX + g.advX) ∧
    g.vres < u32 (u32 ((moveCursor g ch c).nextY + g.advY) + g.advY)

instance (g : Screen) (c : Cursor) (ch : Word) : Decidable (FillsScreen g c ch) :=
  inferInstanceAs (Decidable (_ ∧ _))

/-- The character is in the cache, or FreeType renders it. -/
def HasGlyph (p : Console) (s : Cache) (ch : Word) : Prop :=
  (∃ j < glyphCacheSize, p.font.cell.chOf s.mem j = ch) ∨ ∃ glyph, p.render ch = some glyph

/-- The character has a glyph if it is drawn, and does not fill the screen. -/
structure Prints (p : Console) (t : Text) (ch : Word) : Prop where
  hasGlyph : isspace ch.toInt = false → HasGlyph p t.cache ch
  stays : ¬FillsScreen p.screen t.cursor ch

/-- The cache after a character. -/
def cacheAfter (p : Console) (s : Cache) (ch : Word) : Cache :=
  if isspace ch.toInt then s else (getGlyph p.font p.render s ch).elim s s.after

/-- The cursor and the cache after a character. -/
def Text.afterChar (p : Console) (t : Text) (ch : Word) : Text :=
  ⟨(printCharUnlocked p.screen t.cursor ch).1, cacheAfter p t.cache ch⟩

theorem printCharUnlocked_fills {g : Screen} : (printCharUnlocked g c ch).2 = true ↔ FillsScreen g c ch := by
  unfold printCharUnlocked checkCharpos FillsScreen
  split_ifs with hline
  · dsimp only
    split_ifs with hlast
    · exact iff_of_true rfl ⟨hline, hlast⟩
    · exact iff_of_false not_false fun h => hlast h.2
  · exact iff_of_false not_false fun h => hline h.1

/-- `get_glyph` returns exactly when the character has a glyph. -/
theorem exists_getGlyph_iff : (∃ a, getGlyph p.font p.render s ch = some a) ↔ HasGlyph p s ch := by
  constructor
  · rintro ⟨a, ha⟩
    rcases getGlyph_cases ha with ⟨i, hlookup, -⟩ | ⟨i, glyph, -, hr, -⟩
    · obtain ⟨hi, hch⟩ := lookup_hit hlookup
      rw [chOf_forget] at hch
      exact .inl ⟨i, hi, hch⟩
    · exact .inr ⟨glyph, hr⟩
  · rintro (⟨j, hj, hch⟩ | ⟨glyph, hr⟩)
    · -- the loop over the entries ends at the character
      rw [getGlyph_eq]
      cases hlookup : lookup p.font.cell (Store.run s.mem (nextPriority p.font.cell s.curPriority).2) ch
        (nextPriority p.font.cell s.curPriority).1 with
      | hit i => exact ⟨_, rfl⟩
      | miss i =>
        have hne := (lookup_miss hlookup).2.1 j hj
        rw [chOf_forget] at hne
        exact absurd hch hne
    · exact exists_getGlyph p.font s hr

theorem fetchGlyph_eq (rounds : Nat) (locked : Bool) (h : isspace ch.toInt = false → HasGlyph p t.cache ch) :
    fetchGlyph rounds p ⟨locked, t⟩ ch = some ⟨locked, t.cursor, cacheAfter p t.cache ch⟩ := by
  unfold fetchGlyph cacheAfter
  cases hspace : isspace ch.toInt with
  | true => rfl
  | false =>
    obtain ⟨a, ha⟩ := exists_getGlyph_iff.mpr (h hspace)
    dsimp only
    rw [ha]
    rfl

/-- Without a glyph the kernel panics, and waits for its own mutex. -/
theorem fetchGlyph_none (rounds : Nat) (hspace : isspace ch.toInt = false) (hno : ¬HasGlyph p t.cache ch) :
    fetchGlyph rounds p ⟨true, t⟩ ch = none := by
  have hnone : getGlyph p.font p.render t.cache ch = none := by
    cases ha : getGlyph p.font p.render t.cache ch with
    | none => rfl
    | some a => exact absurd (exists_getGlyph_iff.mp ⟨a, ha⟩) hno
  unfold fetchGlyph
  dsimp only
  rw [hspace, hnone]
  exact kernelPanic_locked rounds t

/-- A character that meets the condition is printed. -/
theorem printCharHeld_eq (rounds : Nat) (locked : Bool) (h : Prints p t ch) :
    printCharHeld rounds p ⟨locked, t⟩ ch = some ⟨locked, t.afterChar p ch⟩ := by
  have hno : (printCharUnlocked p.screen t.cursor ch).2 = false := by
    rw [← Bool.not_eq_true, printCharUnlocked_fills]
    exact h.stays
  unfold printCharHeld
  rw [fetchGlyph_eq rounds locked h.hasGlyph]
  dsimp only [Option.bind_eq_bind, Option.bind_some]
  rw [hno]
  rfl

/-- With the mutex held, no other character is. -/
theorem printCharHeld_none (rounds : Nat) (hno : ¬Prints p t ch) : printCharHeld rounds p ⟨true, t⟩ ch = none := by
  unfold printCharHeld
  by_cases hglyph : isspace ch.toInt = false → HasGlyph p t.cache ch
  · have hfills : (printCharUnlocked p.screen t.cursor ch).2 = true := by
      rw [printCharUnlocked_fills]
      by_contra hstays
      exact hno ⟨hglyph, hstays⟩
    rw [fetchGlyph_eq rounds true hglyph]
    dsimp only [Option.bind_eq_bind, Option.bind_some]
    rw [hfills]
    exact fillScreen_locked rounds _
  · obtain ⟨hspace, hmissing⟩ := Classical.not_imp.mp hglyph
    rw [fetchGlyph_none rounds hspace hmissing]
    rfl

/-! ## Texts -/

/-- Every character of the text meets the condition. -/
def PrintsText (p : Console) : Text → List Word → Prop
  | _, [] => True
  | t, ch :: str => ch = 0 ∨ Prints p t ch ∧ PrintsText p (t.afterChar p ch) str

/-- The cursor and the cache after a text. -/
def Text.afterText (p : Console) : Text → List Word → Text
  | t, [] => t
  | t, ch :: str => if ch = 0 then t else (t.afterChar p ch).afterText p str

theorem printLoop_eq (rounds : Nat) (locked : Bool) (h : PrintsText p t str) :
    printLoop rounds p ⟨locked, t⟩ str = some ⟨locked, t.afterText p str⟩ := by
  induction str generalizing t with
  | nil => rfl
  | cons ch str ih =>
    rw [printLoop, Text.afterText]
    by_cases hzero : ch = 0
    · rw [if_pos hzero, if_pos hzero]
    · obtain ⟨hchar, hrest⟩ := h.resolve_left hzero
      rw [if_neg hzero, if_neg hzero, printCharHeld_eq rounds locked hchar]
      exact ih hrest

/-- With the mutex held, the loop stops at a character that does not meet the condition. -/
theorem printLoop_none (rounds : Nat) (hno : ¬PrintsText p t str) : printLoop rounds p ⟨true, t⟩ str = none := by
  induction str generalizing t with
  | nil => exact absurd trivial hno
  | cons ch str ih =>
    rw [PrintsText, not_or] at hno
    obtain ⟨hzero, hno⟩ := hno
    rw [printLoop, if_neg hzero]
    by_cases hchar : Prints p t ch
    · rw [printCharHeld_eq rounds true hchar]
      exact ih fun hrest => hno ⟨hchar, hrest⟩
    · rw [printCharHeld_none rounds hchar]
      rfl

/-! ## Calls -/

/-- Every character of the call meets the condition. -/
def Call.Prints (p : Console) (t : Text) : Call → Prop
  | .printChar ch => Graphics.Prints p t ch
  | .printStr str => PrintsText p t str
  | .fillScreen => True

/-- The cursor and the cache after a call. -/
def Text.afterCall (p : Console) (t : Text) : Call → Text
  | .printChar ch => t.afterChar p ch
  | .printStr str => t.afterText p str
  | .fillScreen => t

/-- With the mutex free, the calls take it, do their work and free it. -/
theorem printChar_free (rounds : Nat) (p : Console) (t : Text) (ch : Word) :
    printChar (rounds + 1) p ⟨false, t⟩ ch =
      (printCharHeld (rounds + 1) p ⟨true, t⟩ ch).map fun d => ⟨false, d.text⟩ := by
  rw [Option.map_eq_bind]
  rfl

theorem printStr_free (rounds : Nat) (p : Console) (t : Text) (str : List Word) :
    printStr (rounds + 1) p ⟨false, t⟩ str =
      (printLoop (rounds + 1) p ⟨true, t⟩ str).map fun d => ⟨false, d.text⟩ := by
  rw [Option.map_eq_bind]
  rfl

/-- **A call.** With the mutex free, a call whose characters meet the condition returns with the
mutex free. -/
theorem Call.run_eq (call : Call) (h : call.Prints p t) (rounds : Nat) :
    call.run (rounds + 1) p ⟨false, t⟩ = some ⟨false, t.afterCall p call⟩ := by
  cases call with
  | printChar ch =>
    rw [Call.run, printChar_free, printCharHeld_eq (rounds + 1) true h]
    rfl
  | printStr str =>
    rw [Call.run, printStr_free, printLoop_eq (rounds + 1) true h]
    rfl
  | fillScreen => rfl

/-- Any other call never returns. -/
theorem Call.run_none (call : Call) (hno : ¬call.Prints p t) (rounds : Nat) : call.run rounds p ⟨false, t⟩ = none := by
  cases rounds with
  | zero => cases call <;> rfl
  | succ rounds =>
    cases call with
    | printChar ch =>
      rw [Call.run, printChar_free, printCharHeld_none (rounds + 1) hno]
      rfl
    | printStr str =>
      rw [Call.run, printStr_free, printLoop_none (rounds + 1) hno]
      rfl
    | fillScreen => exact absurd trivial hno

/-- The call returns. -/
def Call.Returns (p : Console) (d : Display) (call : Call) (d' : Display) : Prop :=
  ∃ rounds, call.run rounds p d = some d'

/-- The calls return one after the other, each with the mutex free. -/
def Completes (p : Console) : Display → List Call → Prop
  | _, [] => True
  | d, call :: calls => ∃ d', call.Returns p d d' ∧ d'.locked = false ∧ Completes p d' calls

/-- Every character of the calls meets the condition. -/
def PrintsCalls (p : Console) : Text → List Call → Prop
  | _, [] => True
  | t, call :: calls => call.Prints p t ∧ PrintsCalls p (t.afterCall p call) calls

theorem completes_of_free (calls : List Call) : Completes p ⟨false, t⟩ calls ↔ PrintsCalls p t calls := by
  induction calls generalizing t with
  | nil => exact Iff.rfl
  | cons call calls ih =>
    constructor
    · rintro ⟨d', ⟨rounds, hrun⟩, -, hrest⟩
      by_cases hprints : call.Prints p t
      · cases rounds with
        | zero => cases call <;> cases hrun
        | succ rounds =>
          rw [call.run_eq hprints] at hrun
          obtain rfl := Option.some.inj hrun
          exact ⟨hprints, ih.mp hrest⟩
      · rw [call.run_none hprints] at hrun
        cases hrun
    · rintro ⟨hprints, hrest⟩
      exact ⟨_, ⟨1, call.run_eq hprints 0⟩, rfl, ih.mpr hrest⟩

/-- **The mutex.** For every screen and every row of calls on one processor: all calls return,
each with the mutex free, exactly when no character takes the cursor beyond the last line and
every character that is drawn is in the cache or rendered by FreeType. -/
theorem completes_iff (p : Console) (calls : List Call) :
    Completes p .start calls ↔ PrintsCalls p ⟨.start, .initial⟩ calls := completes_of_free calls

/-- A screen of eight columns and two lines, with a font of its size. -/
def smallConsole : Console := ⟨smallScreen.toScreen, smallFont, fun _ => some dot⟩

/-- A newline and two tabs fill it, and the text waits for its own mutex. -/
theorem not_completes_tabs : ¬∀ (p : Console) (calls : List Call), Completes p .start calls := by
  intro h
  obtain ⟨d', ⟨rounds, hrun⟩, -⟩ := h smallConsole [.printStr [10, 9, 9]]
  have hfills : ¬PrintsText smallConsole ⟨.start, .initial⟩ [10, 9, 9] := by
    rintro (hzero | ⟨-, hzero | ⟨-, hzero | ⟨hlast, -⟩⟩⟩)
    · exact absurd hzero (by decide)
    · exact absurd hzero (by decide)
    · exact absurd hzero (by decide)
    · have hcursor : FillsScreen smallScreen.toScreen ⟨32, 16⟩ 9 := by decide
      exact hlast.stays hcursor
  rw [Display.start, Call.run_none (.printStr [10, 9, 9]) hfills] at hrun
  cases hrun

end KoalemOS.Graphics
