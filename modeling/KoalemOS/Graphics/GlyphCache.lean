import KoalemOS.Library.WordStores
import KoalemOS.Library.Recency
import KoalemOS.Library.Reachability
import Mathlib.Algebra.Order.Ring.Int

/-!
# The glyph cache (`src/kernel/graphics.c`)

The memory behind `glyph_cache` is a memory of 32-bit words: an entry is its character, its
priority and a pixel a word. `get_glyph` is the row of its stores. FreeType is a parameter, the
glyph it renders for a character; an error ends in `kernel_panic` and has no value.
-/

namespace KoalemOS.Graphics

open KoalemOS.Library

/-! ## The font -/

/-- A `uint32_t` or a pixel. -/
abbrev Word := BitVec 32

/-- The value of a `uint32_t` computation whose exact result is `x`. -/
def u32 (x : Int) : Nat := (x % 2 ^ 32).toNat

/-- What FreeType says of the space: its advances, which are fixed-point numbers of 16 bits
before and behind the point. -/
structure SpaceAdvance where
  linearHoriAdvance : Nat
  linearVertAdvance : Nat
  hori_lt : linearHoriAdvance < 2 ^ 31
  vert_lt : linearVertAdvance < 2 ^ 31

/-- The size of a character on the screen, `adv_x` and `adv_y`. -/
structure Cell where
  advX : Nat
  advY : Nat
  advX_le : advX ≤ 2 ^ 15
  advY_le : advY ≤ 2 ^ 15

/-- `init_freetype`: `adv_x` and `adv_y` -/
def SpaceAdvance.cell (space : SpaceAdvance) : Cell where
  advX := space.linearHoriAdvance / 65535
  advY := space.linearVertAdvance / 65535
  advX_le := by
    have := space.hori_lt
    omega
  advY_le := by
    have := space.vert_lt
    omega

/-- What `get_glyph` finds set up: `font_height`, `bg_col` and `bg_fg_lerp`. -/
structure Font where
  cell : Cell
  fontHeight : Nat
  bgCol : Word
  bgFgLerp : UInt8 → Word

/-- The `FT_Bitmap` of a glyph, with `bitmap_left` and `bitmap_top`. -/
structure Glyph where
  rows : Nat
  width : Nat
  pitch : Int
  buffer : Nat → UInt8
  bitmapLeft : Int
  bitmapTop : Int

/-! ## The entries -/

/-- `GLYPH_CACHE_SIZE` -/
def glyphCacheSize : Nat := 100

/-- The pixels of a cell. -/
def Cell.pixels (cell : Cell) : Nat := cell.advX * cell.advY

/-- `glyph_cache_entry_size`, in words -/
def Cell.entrySize (cell : Cell) : Nat := 2 + u32 (cell.advX * cell.advY)

/-- Where an entry starts. -/
def Cell.entryAt (cell : Cell) (i : Nat) : Nat := cell.entrySize * i

/-- `&gc_entry->priority` -/
def Cell.priorityAt (cell : Cell) (i : Nat) : Nat := cell.entryAt i + 1

/-- `&gc_entry->bitmap[k]` -/
def Cell.bitmapAt (cell : Cell) (i k : Nat) : Nat := cell.entryAt i + 2 + k

/-- `gc_entry->ch` -/
def Cell.chOf (cell : Cell) (m : Nat → Word) (i : Nat) : Word := m (cell.entryAt i)

/-- `gc_entry->priority` -/
def Cell.priorityOf (cell : Cell) (m : Nat → Word) (i : Nat) : Int := (m (cell.priorityAt i)).toInt

/-! ## `get_glyph` -/

/-- A 64-bit counter cut off to an `int`. -/
def toPriority (curPriority : Nat) : Word := BitVec.ofNat 32 curPriority

/-- `cur_priority++`, and the stores that forget the ages when it returns to 0. -/
def nextPriority (cell : Cell) (curPriority : Nat) : Nat × List (Store Word) :=
  let cur := (curPriority + 1) % 2 ^ 64
  if cur = 0 then (1, (List.range glyphCacheSize).map fun i => ⟨cell.priorityAt i, 0⟩) else (cur, [])

/-- How the loop over the entries ends: at the entry of the character, or with the entry to
replace. -/
inductive Lookup where
  | hit (i : Nat)
  | miss (gcIndex : Nat)
  deriving DecidableEq

/-- The loop over the entries from `i` on, with `k` to go. -/
def lookupFrom (cell : Cell) (m : Nat → Word) (ch : Word) (i gcIndex : Nat) (priority : Int) : Nat → Lookup
  | 0 => .miss gcIndex
  | k + 1 =>
    if cell.chOf m i = ch then .hit i
    else if cell.priorityOf m i < priority then lookupFrom cell m ch (i + 1) i (cell.priorityOf m i) k
    else lookupFrom cell m ch (i + 1) gcIndex priority k

/-- The entry of the character, or the entry to replace. -/
def lookup (cell : Cell) (m : Nat → Word) (ch : Word) (curPriority : Nat) : Lookup :=
  lookupFrom cell m ch 0 0 (toPriority curPriority).toInt glyphCacheSize

/-- The loops that fill the bitmap with the background. -/
def clearBitmap (font : Font) (i : Nat) : List (Store Word) :=
  Store.grid font.cell.advY font.cell.advX fun x y =>
    ⟨font.cell.bitmapAt i (u32 (y * font.cell.advX + x)), font.bgCol⟩

/-- `ft_bm->buffer[y*ft_bm->pitch + x]` -/
def Glyph.gray (glyph : Glyph) (x y : Nat) : UInt8 := glyph.buffer (u32 (y * glyph.pitch + x))

/-- `y_val*adv_x + x_val` -/
def targetIndex (font : Font) (glyph : Glyph) (x y : Nat) : Nat :=
  let yVal := u32 (font.fontHeight + y - glyph.bitmapTop)
  let xVal := u32 (x + glyph.bitmapLeft)
  u32 (yVal * font.cell.advX + xVal)

/-- The loops that draw the glyph. -/
def drawGlyph (font : Font) (glyph : Glyph) (i : Nat) : List (Store Word) :=
  Store.grid glyph.rows glyph.width fun x y =>
    ⟨font.cell.bitmapAt i (targetIndex font glyph x y), font.bgFgLerp (glyph.gray x y)⟩

/-- What `get_glyph` writes to the entry it replaces. -/
def fillEntry (font : Font) (glyph : Glyph) (i : Nat) (ch : Word) (curPriority : Nat) : List (Store Word) :=
  [⟨font.cell.priorityAt i, toPriority curPriority⟩, ⟨font.cell.entryAt i, ch⟩] ++
    (clearBitmap font i ++ drawGlyph font glyph i)

/-- The memory of the cache and `cur_priority`. -/
structure Cache where
  mem : Nat → Word
  curPriority : Nat

/-- A call of `get_glyph`: the entry whose bitmap it returns, `cur_priority`, and its stores. -/
structure Access where
  entry : Nat
  curPriority : Nat
  stores : List (Store Word)

/-- `get_glyph` -/
def getGlyph (font : Font) (render : Word → Option Glyph) (s : Cache) (ch : Word) : Option Access :=
  let (cur, forget) := nextPriority font.cell s.curPriority
  match lookup font.cell (Store.run s.mem forget) ch cur with
  | .hit i => some ⟨i, cur, forget ++ [⟨font.cell.priorityAt i, toPriority cur⟩]⟩
  | .miss i => do
    let glyph ← render ch
    return ⟨i, cur, forget ++ fillEntry font glyph i ch cur⟩

/-- The cache after a call. -/
def Cache.after (s : Cache) (a : Access) : Cache := ⟨Store.run s.mem a.stores, a.curPriority⟩

/-- The cache after `init_freetype`. -/
def Cache.initial : Cache := ⟨fun _ => 0, 0⟩

/-! ## Runs -/

/-- The cache, and the entries that were used since the ages were last forgotten, newest first. -/
structure Run where
  cache : Cache
  uses : List Nat

/-- The ages are forgotten in the next call. -/
def Cache.Forgets (s : Cache) : Prop := (s.curPriority + 1) % 2 ^ 64 = 0

instance (s : Cache) : Decidable s.Forgets := inferInstanceAs (Decidable (_ = _))

/-- The entries used before the use of the next call. -/
def Run.remembered (s : Run) : List Nat := if s.cache.Forgets then [] else s.uses

/-- A request. -/
def Run.request (font : Font) (render : Word → Option Glyph) (s : Run) (ch : Word) : Option Run :=
  (getGlyph font render s.cache ch).map fun a => ⟨s.cache.after a, a.entry :: s.remembered⟩

/-- No request yet. -/
def Run.initial : Run := ⟨.initial, []⟩

/-! ## Addresses -/

variable {cell : Cell} {m : Nat → Word} {ch : Word} {i j k cur : Nat}

theorem u32_of_lt {x : Nat} (h : x < 2 ^ 32) : u32 x = x := by
  unfold u32
  omega

theorem Cell.pixels_le (cell : Cell) : cell.pixels ≤ 2 ^ 30 :=
  Nat.le_trans (Nat.mul_le_mul cell.advX_le cell.advY_le) (by decide)

theorem Cell.entrySize_eq (cell : Cell) : cell.entrySize = 2 + cell.pixels := by
  have hle := cell.pixels_le
  have hu : u32 (cell.pixels : Nat) = cell.pixels := u32_of_lt (by omega)
  rw [entrySize, ← hu, pixels, Int.natCast_mul]

/-- Offsets in different entries are at different addresses. -/
theorem Cell.entry_inj (cell : Cell) {a b : Nat} (ha : a < cell.entrySize) (hb : b < cell.entrySize)
    (h : cell.entryAt i + a = cell.entryAt j + b) : i = j ∧ a = b := by
  have hpos : 0 < cell.entrySize := by omega
  unfold entryAt at h
  have hi : (cell.entrySize * i + a) / cell.entrySize = i := by
    rw [Nat.mul_add_div hpos, Nat.div_eq_of_lt ha, Nat.add_zero]
  have hj : (cell.entrySize * j + b) / cell.entrySize = j := by
    rw [Nat.mul_add_div hpos, Nat.div_eq_of_lt hb, Nat.add_zero]
  have hij : i = j := by rw [← hi, h, hj]
  subst hij
  exact ⟨rfl, by omega⟩

/-- A pixel of the cell has its place in the bitmap. -/
theorem Cell.index_lt (cell : Cell) {x y : Nat} (hx : x < cell.advX) (hy : y < cell.advY) :
    y * cell.advX + x < cell.pixels := by
  have hle : (y + 1) * cell.advX ≤ cell.advY * cell.advX := Nat.mul_le_mul_right _ hy
  rw [Nat.add_mul, Nat.one_mul] at hle
  rw [pixels, Nat.mul_comm cell.advX]
  omega

theorem Cell.index_inj (cell : Cell) {x y x' y' : Nat} (hx : x < cell.advX) (hx' : x' < cell.advX)
    (h : y * cell.advX + x = y' * cell.advX + x') : x = x' ∧ y = y' := by
  have hpos : 0 < cell.advX := by omega
  have hy : (y * cell.advX + x) / cell.advX = y := by
    rw [Nat.mul_comm, Nat.mul_add_div hpos, Nat.div_eq_of_lt hx, Nat.add_zero]
  have hy' : (y' * cell.advX + x') / cell.advX = y' := by
    rw [Nat.mul_comm, Nat.mul_add_div hpos, Nat.div_eq_of_lt hx', Nat.add_zero]
  have heq : y = y' := by rw [← hy, h, hy']
  subst heq
  exact ⟨by omega, rfl⟩

/-! ## The lookup -/

/-- The loop over the entries ends at the first entry of the character, or with the least
priority below that of the call. -/
theorem lookupFrom_cases (cell : Cell) (m : Nat → Word) (ch : Word) (i gcIndex : Nat) (priority : Int) (k : Nat) :
    (∃ v, lookupFrom cell m ch i gcIndex priority k = .hit v ∧ i ≤ v ∧ v < i + k ∧ cell.chOf m v = ch) ∨
    (lookupFrom cell m ch i gcIndex priority k = .miss (leastBelow (cell.priorityOf m) i gcIndex priority k) ∧
      ∀ j, i ≤ j → j < i + k → cell.chOf m j ≠ ch) := by
  induction k generalizing i gcIndex priority with
  | zero => exact .inr ⟨rfl, fun j h₁ h₂ => by omega⟩
  | succ k ih =>
    rw [lookupFrom, leastBelow]
    by_cases hch : cell.chOf m i = ch
    · rw [if_pos hch]
      exact .inl ⟨i, rfl, Nat.le_refl i, by omega, hch⟩
    · -- the entries behind this one, whatever the loop has found so far
      have hrest : ∀ (gcIndex : Nat) (priority : Int),
          (∃ v, lookupFrom cell m ch (i + 1) gcIndex priority k = .hit v ∧ i ≤ v ∧ v < i + (k + 1) ∧
            cell.chOf m v = ch) ∨
          (lookupFrom cell m ch (i + 1) gcIndex priority k =
              .miss (leastBelow (cell.priorityOf m) (i + 1) gcIndex priority k) ∧
            ∀ j, i ≤ j → j < i + (k + 1) → cell.chOf m j ≠ ch) := by
        intro gcIndex priority
        rcases ih (i + 1) gcIndex priority with ⟨v, hv, h₁, h₂, heq⟩ | ⟨hv, hall⟩
        · exact .inl ⟨v, hv, by omega, by omega, heq⟩
        · refine .inr ⟨hv, fun j h₁ h₂ => ?_⟩
          rcases Nat.eq_or_lt_of_le h₁ with rfl | h₁
          · exact hch
          · exact hall j h₁ (by omega)
      rw [if_neg hch]
      by_cases hlt : cell.priorityOf m i < priority
      · rw [if_pos hlt, if_pos hlt]
        exact hrest i (cell.priorityOf m i)
      · rw [if_neg hlt, if_neg hlt]
        exact hrest gcIndex priority

theorem lookup_hit (h : lookup cell m ch cur = .hit i) : i < glyphCacheSize ∧ cell.chOf m i = ch := by
  rcases lookupFrom_cases cell m ch 0 0 (toPriority cur).toInt glyphCacheSize with
    ⟨v, hv, -, hlt, hch⟩ | ⟨hmiss, -⟩
  · rw [lookup, hv] at h
    cases h
    exact ⟨by omega, hch⟩
  · rw [lookup, hmiss] at h
    cases h

/-- On a miss no entry holds the character, and the entry to replace has the least priority, or
no priority is below that of the call. -/
theorem lookup_miss (h : lookup cell m ch cur = .miss i) :
    i < glyphCacheSize ∧ (∀ j < glyphCacheSize, cell.chOf m j ≠ ch) ∧
      i = leastBelow (cell.priorityOf m) 0 0 (toPriority cur).toInt glyphCacheSize := by
  rcases lookupFrom_cases cell m ch 0 0 (toPriority cur).toInt glyphCacheSize with
    ⟨v, hv, -⟩ | ⟨hmiss, hall⟩
  · rw [lookup, hv] at h
    cases h
  · rw [lookup, hmiss] at h
    obtain rfl := (Lookup.miss.inj h).symm
    refine ⟨?_, fun j hj => hall j (Nat.zero_le j) (by omega), rfl⟩
    rcases leastBelow_spec (cell.priorityOf m) 0 0 (toPriority cur).toInt glyphCacheSize with
      ⟨v, hv, -, hlt, -⟩ | ⟨hv, -⟩
    · rw [hv]
      omega
    · rw [hv]
      decide

/-! ## A call -/

variable {font : Font} {render : Word → Option Glyph} {s : Cache} {a : Access}

/-- A call, by its lookup. -/
theorem getGlyph_eq (font : Font) (render : Word → Option Glyph) (s : Cache) (ch : Word) :
    getGlyph font render s ch =
      match lookup font.cell (Store.run s.mem (nextPriority font.cell s.curPriority).2) ch
        (nextPriority font.cell s.curPriority).1 with
      | .hit i => some ⟨i, (nextPriority font.cell s.curPriority).1, (nextPriority font.cell s.curPriority).2 ++
          [⟨font.cell.priorityAt i, toPriority (nextPriority font.cell s.curPriority).1⟩]⟩
      | .miss i => (render ch).map fun glyph => ⟨i, (nextPriority font.cell s.curPriority).1,
          (nextPriority font.cell s.curPriority).2 ++
            fillEntry font glyph i ch (nextPriority font.cell s.curPriority).1⟩ := by
  unfold getGlyph
  obtain ⟨cur, forget⟩ := nextPriority font.cell s.curPriority
  dsimp only
  cases lookup font.cell (Store.run s.mem forget) ch cur with
  | hit i => rfl
  | miss i => exact Option.map_eq_bind.symm

/-- A call finds the character and notes its use, or renders it into the entry to replace. -/
theorem getGlyph_cases (h : getGlyph font render s ch = some a) :
    (∃ i, lookup font.cell (Store.run s.mem (nextPriority font.cell s.curPriority).2) ch
          (nextPriority font.cell s.curPriority).1 = .hit i ∧
        a = ⟨i, (nextPriority font.cell s.curPriority).1, (nextPriority font.cell s.curPriority).2 ++
          [⟨font.cell.priorityAt i, toPriority (nextPriority font.cell s.curPriority).1⟩]⟩) ∨
    ∃ i glyph, lookup font.cell (Store.run s.mem (nextPriority font.cell s.curPriority).2) ch
          (nextPriority font.cell s.curPriority).1 = .miss i ∧ render ch = some glyph ∧
        a = ⟨i, (nextPriority font.cell s.curPriority).1, (nextPriority font.cell s.curPriority).2 ++
          fillEntry font glyph i ch (nextPriority font.cell s.curPriority).1⟩ := by
  rw [getGlyph_eq] at h
  cases hl : lookup font.cell (Store.run s.mem (nextPriority font.cell s.curPriority).2) ch
    (nextPriority font.cell s.curPriority).1 with
  | hit i =>
    rw [hl] at h
    exact .inl ⟨i, rfl, (Option.some.inj h).symm⟩
  | miss i =>
    rw [hl] at h
    obtain ⟨glyph, hr, h⟩ := Option.map_eq_some_iff.mp h
    exact .inr ⟨i, glyph, rfl, hr, h.symm⟩

/-- A call fails only where FreeType does. -/
theorem exists_getGlyph (font : Font) {glyph : Glyph} (s : Cache) (hr : render ch = some glyph) :
    ∃ a, getGlyph font render s ch = some a := by
  rw [getGlyph_eq, hr]
  cases lookup font.cell (Store.run s.mem (nextPriority font.cell s.curPriority).2) ch
    (nextPriority font.cell s.curPriority).1 with
  | hit i => exact ⟨_, rfl⟩
  | miss i => exact ⟨_, rfl⟩

/-- Forgetting the ages writes priorities. -/
theorem nextPriority_stores {st : Store Word} (h : st ∈ (nextPriority cell cur).2) :
    ∃ i, st = ⟨cell.priorityAt i, 0⟩ := by
  unfold nextPriority at h
  dsimp only at h
  split_ifs at h
  · obtain ⟨i, -, rfl⟩ := List.mem_map.mp h
    exact ⟨i, rfl⟩
  · cases h

/-- Stores to priorities leave the other words of the entries alone. -/
theorem run_priorities {ss : List (Store Word)} (h : ∀ st ∈ ss, ∃ i, st.addr = cell.priorityAt i) {b : Nat}
    (hb : b < cell.entrySize) (hne : b ≠ 1) (j : Nat) :
    Store.run m ss (cell.entryAt j + b) = m (cell.entryAt j + b) := by
  have hsize := cell.entrySize_eq
  refine Store.run_other fun st hst heq => ?_
  obtain ⟨i, hi⟩ := h st hst
  rw [hi] at heq
  exact hne (cell.entry_inj (by omega) hb heq).2.symm

/-- Stores to priorities leave characters alone. -/
theorem chOf_priorities {ss : List (Store Word)} (h : ∀ st ∈ ss, ∃ i, st.addr = cell.priorityAt i) (j : Nat) :
    cell.chOf (Store.run m ss) j = cell.chOf m j := by
  have hsize := cell.entrySize_eq
  exact run_priorities h (b := 0) (by omega) (by omega) j

/-- Forgetting the ages leaves the characters. -/
theorem chOf_forget (cell : Cell) (m : Nat → Word) (cur j : Nat) :
    cell.chOf (Store.run m (nextPriority cell cur).2) j = cell.chOf m j := by
  refine chOf_priorities (fun st hst => ?_) j
  obtain ⟨i, rfl⟩ := nextPriority_stores hst
  exact ⟨i, rfl⟩

end KoalemOS.Graphics
