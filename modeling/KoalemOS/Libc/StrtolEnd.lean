import KoalemOS.Libc.DigitLoop

/-!
# Where `strtol` ends

`strtol` against the grammar. It reads no `+`, detects some prefixes another way, and moves
`str_end` over white space and a `-` with no digit behind. Where none of this happens and the
digits of a number out of range are skipped as a whole, it ends where the grammar says
(`strtol_end_iff`).
-/

namespace KoalemOS.Libc

/-! ## The prefix -/

/-- The prefixes of which `strtol` makes what the grammar does: no `0X` before a hex digit, no
`0x` before a letter that is no hex digit, and for base 0 no `0` (or `0x`) before anything but
a letter or digit. -/
structure PrefixRead (base : Int) (t : Str) : Prop where
  upper : base = 0 ∨ base = 16 → t.getD 0 0 = 48 → t.getD 1 0 = 88 → validIn 16 (t.getD 2 0) = false
  lower : base = 0 ∨ base = 16 → t.getD 0 0 = 48 → t.getD 1 0 = 120 →
    validIn 36 (t.getD 2 0) = true → validIn 16 (t.getD 2 0) = true
  octal : base = 0 → t.getD 0 0 = 48 → validIn 36 (t.getD 1 0) = true ∧
    (t.getD 1 0 = 120 → validIn 36 (t.getD 2 0) = true)

/-- `if(base == 0) base = 10;` -/
def orTen (base : Int) : Int := if base = 0 then 10 else base

theorem headD_eq_getD (t : Str) : t.headD 0 = t.getD 0 0 := by cases t <;> rfl

theorem peek_eq_iff (t : Str) (c : UInt8) (hc : c.toNat < 128) :
    peek t = c.toNat ↔ t.getD 0 0 = c := by
  have h := (t.getD 0 0).toNat_lt
  rw [peek, headD_eq_getD, charVal, ← UInt8.toNat_inj]
  split_ifs <;> omega

theorem detectBase_of_head {base : Int} {t : Str} (h : t.getD 0 0 ≠ 48) :
    detectBase base t = some (orTen base, t) := by
  have hpeek : peek t ≠ 48 := fun hc => h ((peek_eq_iff t 48 (by decide)).mp hc)
  rw [detectBase, if_neg hpeek]
  rfl

/-- The branch for a leading zero. -/
theorem detectBase_zero (base : Int) (r : Str) : detectBase base (48 :: r) =
    if r.getD 0 0 = 120 ∧ (base = 16 ∨ base = 0) then
      if validIn 36 (r.getD 1 0) = true then some (16, r.tail) else some (orTen base, 48 :: r)
    else if (base = 8 ∨ base = 0) ∧ validIn 36 (r.getD 0 0) = true then some (8, r)
    else some (orTen base, 48 :: r) := by
  have hread : ∀ (x : UInt8) (cur : Str), charAt (x :: cur) 1 = some (peek cur) := by
    intro x cur
    cases cur <;> rfl
  have hx : peek r = 120 ↔ r.getD 0 0 = 120 := peek_eq_iff r 120 (by decide)
  have halnum : ∀ cur : Str, isalnum (peek cur) = validIn 36 (cur.getD 0 0) := fun cur => by
    rw [← headD_eq_getD]
    exact isalnum_charVal _
  have hzero : peek (48 :: r) = 48 := by
    show charVal 48 = 48
    decide
  rw [detectBase, if_pos hzero, zeroPrefix, hread, Option.bind_eq_bind, Option.bind_eq_bind,
    Option.bind_some]
  simp only [hx, halnum]
  split_ifs with h₁ h₂ h₃
  · -- `0x` and a letter or digit
    cases r with
    | nil => cases h₁.1
    | cons y r =>
      rw [show charAt (48 :: y :: r) 2 = charAt (y :: r) 1 from rfl, hread, Option.bind_some, halnum,
        if_pos (by simpa using h₂)]
      simp [advance]
  · cases r with
    | nil => cases h₁.1
    | cons y r =>
      rw [show charAt (48 :: y :: r) 2 = charAt (y :: r) 1 from rfl, hread, Option.bind_some, halnum,
        if_neg (by simpa using h₂)]
      rfl
  · simp [advance]
  · rfl

theorem hexPrefixed_zero (base : Int) (r : Str) : HexPrefixed base (48 :: r) ↔
    (base = 0 ∨ base = 16) ∧ (r.getD 0 0 = 120 ∨ r.getD 0 0 = 88) ∧ validIn 16 (r.getD 1 0) = true := by
  constructor
  · rintro ⟨hbase, x, h, rest, heq, hx, hh⟩
    obtain ⟨-, rfl⟩ := List.cons.inj heq
    exact ⟨hbase, hx, hh⟩
  · rintro ⟨hbase, hx, hh⟩
    match r with
    | x :: h :: rest => exact ⟨hbase, x, h, rest, rfl, hx, hh⟩
    | [_] => cases hh
    | [] => cases hh

theorem not_hexPrefixed_of_head {base : Int} {t : Str} (h : t.getD 0 0 ≠ 48) : ¬HexPrefixed base t := by
  rintro ⟨-, x, d, rest, rfl, -⟩
  exact h rfl

theorem plainBase_of_head {base : Int} {t : Str} (h : t.getD 0 0 ≠ 48) : plainBase base t = orTen base := by
  unfold plainBase orTen
  by_cases h0 : base = 0
  · rw [if_neg (not_not.mpr h0), if_pos h0, if_neg]
    intro hh
    cases t with
    | nil => cases hh
    | cons c t => exact h (Option.some.inj hh)
  · rw [if_pos h0, if_neg h0]

/-- A base the function accepts. -/
def ValidBase (base : Int) : Prop := base = 0 ∨ 2 ≤ base ∧ base ≤ 36

theorem ValidBase.numeral {base : Int} (h : ValidBase base) (t : Str) :
    2 ≤ (numeral base t).1 ∧ (numeral base t).1 ≤ 36 := by
  unfold Libc.numeral plainBase
  rcases h with rfl | ⟨h₁, h₂⟩ <;> split_ifs <;> simp <;> omega

theorem loopEnds_octal (neg : Bool) (r e : Str) :
    LoopEnds neg 8 0 r e ↔ LoopEnds neg 8 0 (48 :: r) e := by
  rw [LoopEnds, LoopEnds, digitLoop_zero (by decide) (by decide)]

theorem numeral_of_hexPrefixed {base : Int} {r : Str} (h : HexPrefixed base (48 :: r)) :
    numeral base (48 :: r) = (16, r.tail) := by
  rw [numeral, if_pos h]
  cases r <;> rfl

theorem numeral_of_zero {base : Int} {r : Str} (h : ¬HexPrefixed base (48 :: r)) :
    numeral base (48 :: r) = (if base = 0 then 8 else base, 48 :: r) := by
  rw [numeral, if_neg h, plainBase]
  split_ifs <;> simp_all

theorem exists_zero_of_head {t : Str} (h : t.getD 0 0 = 48) : ∃ r, t = 48 :: r := by
  cases t with
  | nil => cases h
  | cons c r => exact ⟨r, by rw [show c = 48 from h]⟩

/-- Where the prefix is read as the grammar says, the loop starts in the grammar's base and
ends as if it started at the grammar's digits. -/
theorem PrefixRead.detectBase {base : Int} {t : Str} (h : PrefixRead base t) :
    ∃ t', Libc.detectBase base t = some ((numeral base t).1, t') ∧
      ∀ neg e, LoopEnds neg (numeral base t).1 0 t' e ↔
        LoopEnds neg (numeral base t).1 0 (numeral base t).2 e := by
  by_cases hhead : t.getD 0 0 = 48
  · obtain ⟨r, rfl⟩ := exists_zero_of_head hhead
    obtain ⟨hupper, hlower, hoctal⟩ := h
    simp only [List.getD_cons_zero, List.getD_cons_succ, true_implies] at hupper hlower hoctal
    rw [detectBase_zero]
    by_cases hhex : HexPrefixed base (48 :: r)
    · rw [numeral_of_hexPrefixed hhex]
      obtain ⟨hbase, hx, hd⟩ := (hexPrefixed_zero base r).mp hhex
      have hx' : r.getD 0 0 = 120 := hx.resolve_right fun hx => by
        rw [hupper hbase hx] at hd
        cases hd
      rw [if_pos ⟨hx', hbase.symm⟩, if_pos (validIn_mono (by decide) hd)]
      exact ⟨_, rfl, fun _ _ => Iff.rfl⟩
    · rw [numeral_of_zero hhex]
      rw [hexPrefixed_zero] at hhex
      by_cases h0 : base = 0
      · subst h0
        obtain ⟨halnum, hX⟩ := hoctal rfl
        have hx : r.getD 0 0 ≠ 120 := fun hx =>
          hhex ⟨.inl rfl, .inl hx, hlower (.inl rfl) hx (hX hx)⟩
        rw [if_neg fun hc => hx hc.1, if_pos ⟨.inr rfl, halnum⟩, if_pos rfl]
        exact ⟨r, rfl, fun neg e => loopEnds_octal neg r e⟩
      · rw [if_neg h0, show orTen base = base from if_neg h0]
        split_ifs with h₁ h₂ h₃
        · exact absurd ⟨h₁.2.symm, .inl h₁.1, hlower h₁.2.symm h₁.1 h₂⟩ hhex
        · exact ⟨_, rfl, fun _ _ => Iff.rfl⟩
        · obtain rfl : base = 8 := h₃.1.resolve_right h0
          exact ⟨r, rfl, fun neg e => loopEnds_octal neg r e⟩
        · exact ⟨_, rfl, fun _ _ => Iff.rfl⟩
  · have hnum : Libc.numeral base t = (orTen base, t) := by
      rw [Libc.numeral, if_neg (not_hexPrefixed_of_head hhead), plainBase_of_head hhead]
    rw [hnum]
    exact ⟨t, detectBase_of_head hhead, fun _ _ => Iff.rfl⟩

/-- The character the loop starts at is no digit. -/
theorem dropWhile_of_head {p : UInt8 → Bool} {t : Str} (h : p (t.getD 0 0) = false) :
    t.dropWhile p = t := by
  cases t with
  | nil => rfl
  | cons c t => rw [List.dropWhile_cons, if_neg (by simpa using h)]

theorem validIn_nul (base : Int) : validIn base 0 = false := rfl

/-- Elsewhere the loop starts in another base, or ends elsewhere. -/
theorem detectBase_of_not_prefixRead {base : Int} {t : Str} (h : ¬PrefixRead base t) :
    ∃ base' t', Libc.detectBase base t = some (base', t') ∧
      (base' = (numeral base t).1 → ∀ neg, ∃ e, LoopEnds neg base' 0 t' e ∧ e ≠ behindDigits base t) := by
  have hhead : t.getD 0 0 = 48 := by
    by_contra hhead
    exact h ⟨fun _ h' => absurd h' hhead, fun _ h' => absurd h' hhead, fun _ h' => absurd h' hhead⟩
  obtain ⟨r, rfl⟩ := exists_zero_of_head hhead
  rw [detectBase_zero]
  by_cases hhex : HexPrefixed base (48 :: r)
  · -- `0X` before a hex digit
    have hnum := numeral_of_hexPrefixed hhex
    obtain ⟨hbase, hx, hd⟩ := (hexPrefixed_zero base r).mp hhex
    have hX : r.getD 0 0 = 88 := by
      refine hx.resolve_left fun hx => h ⟨?_, fun _ _ _ _ => hd, fun _ _ => ?_⟩
      · intro _ _ hc
        have hc' : r.getD 0 0 = 88 := hc
        rw [hx] at hc'
        cases hc'
      · exact ⟨by rw [show (48 :: r).getD 1 0 = r.getD 0 0 from rfl, hx]; decide,
          fun _ => validIn_mono (by decide) hd⟩
    have hne : r.getD 0 0 ≠ 120 := by
      rw [hX]
      decide
    rw [if_neg fun hc => hne hc.1, hnum]
    split_ifs with h₂
    · exact ⟨8, r, rfl, fun hc => by cases hc⟩
    · refine ⟨_, _, rfl, fun hc neg => ⟨r, ?_, ?_⟩⟩
      · show LoopEnds neg (orTen base) 0 (48 :: r) r
        rw [hc]
        show LoopEnds neg 16 0 (48 :: r) r
        rw [LoopEnds, digitLoop_zero (by decide) (by decide)]
        refine digitLoop_stop (by decide) (dropWhile_of_head ?_)
        rw [hX]
        decide
      · intro heq
        have hlen := congrArg List.length heq
        rw [behindDigits, hnum] at hlen
        have hle := (List.dropWhile_sublist (validIn 16) (l := r.tail)).length_le
        cases r with
        | nil => cases hX
        | cons y r =>
          simp only [List.tail_cons, List.length_cons] at hle hlen
          omega
  · have hnum := numeral_of_zero hhex
    rw [hexPrefixed_zero] at hhex
    have hupper : base = 0 ∨ base = 16 → r.getD 0 0 = 88 → validIn 16 (r.getD 1 0) = false := by
      intro hbase hX
      by_contra hd
      exact hhex ⟨hbase, .inr hX, by simpa using hd⟩
    rw [hnum]
    by_cases h0 : base = 0
    · subst h0
      rw [if_pos rfl]
      split_ifs with h₁ h₂ h₃
      · exact ⟨_, _, rfl, fun hc => by cases hc⟩
      · exact ⟨_, _, rfl, fun hc => by cases hc⟩
      · refine absurd ⟨fun hb _ => hupper hb, fun hb _ hx => absurd ⟨hx, .inr rfl⟩ h₁, fun _ _ => ⟨h₃.2, ?_⟩⟩ h
        exact fun hx => absurd ⟨hx, .inr rfl⟩ h₁
      · exact ⟨_, _, rfl, fun hc => by cases hc⟩
    · have hlower : r.getD 0 0 = 120 ∧ base = 16 ∧ validIn 36 (r.getD 1 0) = true := by
        by_contra hc
        refine h ⟨fun hb _ => hupper hb, fun hb _ hx hz => ?_, fun hb => absurd hb h0⟩
        exact absurd ⟨hx, hb.resolve_left h0, hz⟩ hc
      obtain ⟨hx, rfl, hz⟩ := hlower
      -- the loop starts at the letter, the numeral ends before the `x`
      rw [if_pos ⟨hx, .inl rfl⟩, if_pos hz]
      refine ⟨16, r.tail, rfl, fun _ neg => ⟨r.tail, digitLoop_stop (by decide) (dropWhile_of_head ?_), ?_⟩⟩
      · have hd : ¬validIn 16 (r.getD 1 0) = true := fun hd => hhex ⟨.inr rfl, .inl hx, hd⟩
        cases r with
        | nil => cases hx
        | cons y r => simpa using hd
      · have hbehind : behindDigits 16 (48 :: r) = r := by
          rw [behindDigits, hnum]
          show (48 :: r).dropWhile (validIn 16) = r
          rw [List.dropWhile_cons, if_pos (by decide)]
          refine dropWhile_of_head ?_
          rw [hx]
          decide
        rw [hbehind]
        intro heq
        cases r with
        | nil => cases hx
        | cons y r =>
          have := congrArg List.length heq
          simp at this

/-! ## The end of the number -/

/-- A call with a `str_end` sets it to where the grammar says, and uses the grammar's base. -/
def EndsBehindSubject (base : Int) (s : Str) : Prop :=
  ∃ start result cur, scanStart s base = some start ∧ strtol s true base = some result ∧
    result.strEnd = some cur ∧ MeetsGrammar base s start.base cur

/-- The strings of which `strtol` makes what the grammar does. Without a subject sequence they
start with neither white space nor a `-`. -/
structure ReadAsGrammar (base : Int) (s : Str) : Prop where
  noSubject : ¬HasSubject base s → behindSpaces s = s ∧ s.getD 0 0 ≠ 45
  noPlus : HasSubject base s → (behindSpaces s).getD 0 0 ≠ 43
  prefixRead : HasSubject base s → PrefixRead base (behindSign (behindSpaces s))
  skips : HasSubject base s → SkipsAfter ((behindSpaces s).getD 0 0 = 45)
    (numeral base (behindSign (behindSpaces s))).1 [] (numeral base (behindSign (behindSpaces s))).2

/-- `if(*cur == '-') cur++;` -/
def behindMinus (cur : Str) : Str := if cur.getD 0 0 = 45 then cur.tail else cur

theorem scanStart_eq (s : Str) (base : Int) :
    scanStart s base = (detectBase base (behindMinus (behindSpaces s))).map fun r =>
      ⟨(behindSpaces s).getD 0 0 = 45, r.1, r.2⟩ := by
  have hminus : peek (behindSpaces s) = 45 ↔ (behindSpaces s).getD 0 0 = 45 :=
    peek_eq_iff _ 45 (by decide)
  unfold scanStart behindMinus
  rw [skipSpaces_eq, Option.map_eq_bind]
  generalize behindSpaces s = cur at hminus ⊢
  simp only [hminus]
  by_cases h : cur.getD 0 0 = 45
  · cases cur with
    | nil => cases h
    | cons c cur =>
      simp only [h, decide_true, if_true, advance]
      rfl
  · simp only [h, decide_false, if_false, Bool.false_eq_true]
    rfl

theorem endsBehindSubject_iff {base : Int} (hb : ValidBase base) (s : Str) :
    EndsBehindSubject base s ↔
      ∃ b t' e, detectBase base (behindMinus (behindSpaces s)) = some (b, t') ∧
        LoopEnds ((behindSpaces s).getD 0 0 = 45) b 0 t' e ∧ MeetsGrammar base s b e := by
  have hvalid : ¬(base > 36 ∨ base < 0 ∨ base = 1) := by
    rcases hb with rfl | ⟨h₁, h₂⟩ <;> omega
  unfold EndsBehindSubject strtol
  rw [if_neg hvalid, scanStart_eq]
  constructor
  · rintro ⟨start, result, e, hstart, hres, hend, hmeets⟩
    obtain ⟨⟨b, t'⟩, hdet, rfl⟩ := Option.map_eq_some_iff.mp hstart
    rw [hdet] at hres
    obtain ⟨_, hs, hres⟩ := Option.bind_eq_some_iff.mp hres
    obtain rfl := Option.some.inj hs
    obtain ⟨⟨value, errno, cur⟩, hloop, hres⟩ := Option.bind_eq_some_iff.mp hres
    obtain rfl := Option.some.inj hres
    obtain rfl : cur = e := Option.some.inj hend
    exact ⟨b, t', cur, hdet, ⟨value, errno, hloop⟩, hmeets⟩
  · rintro ⟨b, t', e, hdet, ⟨value, errno, hloop⟩, hmeets⟩
    rw [hdet]
    refine ⟨_, ⟨value, some e, errno⟩, e, rfl, ?_, rfl, hmeets⟩
    show (digitLoop _ b 0 t').bind _ = _
    rw [hloop]
    rfl

theorem orTen_bounds {base : Int} (hb : ValidBase base) : 2 ≤ orTen base ∧ orTen base ≤ 36 := by
  unfold orTen
  rcases hb with rfl | ⟨h₁, h₂⟩
  · decide
  · rw [if_neg (by omega)]
    exact ⟨h₁, h₂⟩

/-- A string without digits is read up to where the digits would be. -/
theorem loopEnds_of_no_digit {base : Int} (hb : ValidBase base) {t : Str}
    (h : validIn (orTen base) (t.getD 0 0) = false) (neg : Bool) :
    detectBase base t = some (orTen base, t) ∧ LoopEnds neg (orTen base) 0 t t := by
  obtain ⟨h₁, h₂⟩ := orTen_bounds hb
  have hhead : t.getD 0 0 ≠ 48 := fun hc => by
    rw [hc, validIn_zero (by omega)] at h
    cases h
  exact ⟨detectBase_of_head hhead, digitLoop_stop h₂ (dropWhile_of_head h)⟩

/-- Where no numeral starts there is no digit. -/
theorem no_digit_of_digitsAt {base : Int} (hb : ValidBase base) {t : Str} (h : digitsAt base t = []) :
    validIn (orTen base) (t.getD 0 0) = false := by
  by_contra hc
  rw [Bool.not_eq_false] at hc
  cases t with
  | nil => cases hc
  | cons c t =>
    have hc' : validIn (orTen base) c = true := hc
    by_cases h0 : c = 48
    · subst h0
      obtain ⟨h₁, -⟩ := hb.numeral (48 :: t)
      have hv : validIn (numeral base (48 :: t)).1 48 = true := validIn_zero (by omega)
      by_cases hhex : HexPrefixed base (48 :: t)
      · have := hhex.three_le
        rw [numeralAt, if_pos hhex, h, List.append_nil] at this
        have := List.length_take_le 2 (48 :: t)
        omega
      · have hds : (numeral base (48 :: t)).2 = 48 :: t := by rw [numeral, if_neg hhex]
        rw [digitsAt, hds, List.takeWhile_cons, hv] at h
        cases h
    · have hhead : (c :: t).getD 0 0 ≠ 48 := h0
      have hnum : numeral base (c :: t) = (orTen base, c :: t) := by
        rw [numeral, if_neg (not_hexPrefixed_of_head hhead), plainBase_of_head hhead]
      rw [digitsAt, hnum] at h
      simp only [List.takeWhile_cons, hc', if_true] at h
      cases h

theorem behindMinus_of_ne {cur : Str} (h : cur.getD 0 0 ≠ 43) : behindMinus cur = behindSign cur := by
  unfold behindMinus behindSign
  cases cur with
  | nil => rfl
  | cons c cur =>
    have h' : c ≠ 43 := h
    by_cases h45 : c = 45
    · subst h45
      rfl
    · have h45' : ¬(c :: cur).getD 0 0 = 45 := h45
      rw [signAt_of_head h' h45, if_neg h45']
      rfl

/-- A string that starts with a subject sequence. -/
theorem endsBehindSubject_of_hasSubject {base : Int} (hb : ValidBase base) {s : Str}
    (h : HasSubject base s) : EndsBehindSubject base s ↔
      (behindSpaces s).getD 0 0 ≠ 43 ∧ PrefixRead base (behindSign (behindSpaces s)) ∧
      SkipsAfter ((behindSpaces s).getD 0 0 = 45) (numeral base (behindSign (behindSpaces s))).1 []
        (numeral base (behindSign (behindSpaces s))).2 := by
  rw [endsBehindSubject_iff hb]
  simp only [meetsGrammar_of_hasSubject h]
  generalize behindSpaces s = cur
  by_cases hplus : cur.getD 0 0 = 43
  · -- the loop ends at the `+`
    refine iff_of_false ?_ fun hc => hc.1 hplus
    rintro ⟨b, t', e, hdet, hloop, -, rfl⟩
    have hminus : behindMinus cur = cur := if_neg (by rw [hplus]; decide)
    obtain ⟨hdet', hloop'⟩ := loopEnds_of_no_digit hb (t := cur) (by rw [hplus]; rfl)
      (cur.getD 0 0 = 45)
    rw [hminus, hdet'] at hdet
    obtain ⟨rfl, rfl⟩ := Prod.mk.inj (Option.some.inj hdet)
    have hlen := congrArg List.length (loopEnds_unique hloop hloop')
    have hle := behindDigits_length_le base (behindSign cur)
    cases cur with
    | nil => cases hplus
    | cons c cur =>
      obtain rfl : c = 43 := hplus
      rw [hlen] at hle
      exact absurd hle (by simp [behindSign, signAt])
  · rw [behindMinus_of_ne hplus]
    generalize behindSign cur = t
    by_cases hpre : PrefixRead base t
    · obtain ⟨t', hdet, hloops⟩ := hpre.detectBase
      have hend := @digitLoop_start_iff (cur.getD 0 0 = 45) _ (hb.numeral t).2 (numeral base t).2
      constructor
      · rintro ⟨b, u, e, hdet', hloop, rfl, rfl⟩
        rw [hdet] at hdet'
        obtain ⟨-, rfl⟩ := Prod.mk.inj (Option.some.inj hdet')
        exact ⟨hplus, hpre, hend.mp ((hloops _ _).mp hloop)⟩
      · rintro ⟨-, -, hskip⟩
        exact ⟨_, t', _, hdet, (hloops _ _).mpr (hend.mpr hskip), rfl, rfl⟩
    · refine iff_of_false ?_ fun hc => hpre hc.2.1
      rintro ⟨b, u, e, hdet', hloop, hbase, rfl⟩
      obtain ⟨base', t', hdet, hother⟩ := detectBase_of_not_prefixRead hpre
      rw [hdet] at hdet'
      obtain ⟨rfl, rfl⟩ := Prod.mk.inj (Option.some.inj hdet')
      obtain ⟨e, hloop', hne⟩ := hother hbase (cur.getD 0 0 = 45)
      exact hne (loopEnds_unique hloop' hloop)

/-- A string that does not: the pointer is behind the white space and a `-`. -/
theorem endsBehindSubject_of_not_hasSubject {base : Int} (hb : ValidBase base) {s : Str}
    (h : ¬HasSubject base s) :
    EndsBehindSubject base s ↔ behindSpaces s = s ∧ s.getD 0 0 ≠ 45 := by
  have hno := no_digit_of_digitsAt hb (not_not.mp (mt hasSubject_iff.mpr h))
  have hspaces : (behindSpaces s).length ≤ s.length :=
    (List.dropWhile_sublist isSpaceChar).length_le
  -- behind the `-`, or at the character that is no digit
  have hdigit : validIn (orTen base) ((behindMinus (behindSpaces s)).getD 0 0) = false := by
    by_cases hplus : (behindSpaces s).getD 0 0 = 43
    · rw [behindMinus, if_neg (by rw [hplus]; decide), hplus]
      rfl
    · rwa [behindMinus_of_ne hplus]
  obtain ⟨hdet, hloop⟩ := loopEnds_of_no_digit hb hdigit ((behindSpaces s).getD 0 0 = 45)
  rw [endsBehindSubject_iff hb]
  simp only [meetsGrammar_of_not_hasSubject h]
  have hends : (∃ b t' e, detectBase base (behindMinus (behindSpaces s)) = some (b, t') ∧
      LoopEnds ((behindSpaces s).getD 0 0 = 45) b 0 t' e ∧ e = s) ↔ behindMinus (behindSpaces s) = s := by
    constructor
    · rintro ⟨b, t', e, hdet', hloop', rfl⟩
      rw [hdet] at hdet'
      obtain ⟨rfl, rfl⟩ := Prod.mk.inj (Option.some.inj hdet')
      exact loopEnds_unique hloop hloop'
    · intro heq
      exact ⟨_, _, _, hdet, hloop, heq⟩
  rw [hends]
  by_cases h45 : (behindSpaces s).getD 0 0 = 45
  · rw [behindMinus, if_pos h45]
    refine iff_of_false (fun heq => ?_) fun hc => hc.2 (hc.1 ▸ h45)
    cases hcur : behindSpaces s with
    | nil =>
      rw [hcur] at h45
      cases h45
    | cons c cur =>
      rw [hcur, List.tail_cons] at heq
      rw [hcur, ← heq, List.length_cons] at hspaces
      omega
  · rw [behindMinus, if_neg h45]
    exact ⟨fun heq => ⟨heq, heq ▸ h45⟩, fun heq => heq.1⟩

/-- **Where `strtol` ends.** For every string and base, `str_end` is set behind the longest
subject sequence, or to the string where there is none, and the base in use is the one the
grammar prescribes, exactly when the string is one that `strtol` reads as the grammar says. -/
theorem strtol_end_iff (s : Str) {base : Int} (hb : ValidBase base) :
    EndsBehindSubject base s ↔ ReadAsGrammar base s := by
  by_cases h : HasSubject base s
  · rw [endsBehindSubject_of_hasSubject hb h]
    exact ⟨fun ⟨h₁, h₂, h₃⟩ => ⟨fun hc => absurd h hc, fun _ => h₁, fun _ => h₂, fun _ => h₃⟩,
      fun hr => ⟨hr.noPlus h, hr.prefixRead h, hr.skips h⟩⟩
  · rw [endsBehindSubject_of_not_hasSubject hb h]
    exact ⟨fun hs => ⟨fun _ => hs, fun hc => absurd hc h, fun hc => absurd hc h, fun hc => absurd hc h⟩,
      fun hr => hr.noSubject h⟩

/-- `-0x1f` in base 0 is read as the grammar says. -/
theorem strtol_end_iff_hex : EndsBehindSubject 0 [45, 48, 120, 49, 102] := by
  refine (strtol_end_iff [45, 48, 120, 49, 102] (.inl rfl)).mpr ⟨fun h => ?_, fun _ => by decide,
    fun _ => ⟨by decide, by decide, by decide⟩, fun _ => ?_⟩
  · exact absurd (hasSubject_iff.mpr (by decide)) h
  · exact (digitLoop_start_iff (by decide) [49, 102]).mp ⟨-31, none, by decide⟩

/-- `+5` is a subject sequence, and `strtol` stops at the sign. -/
theorem not_endsBehindSubject_plus : ¬EndsBehindSubject 10 [43, 53] := by
  intro h
  have hsubject : HasSubject 10 [43, 53] := hasSubject_iff.mpr (by decide)
  exact ((endsBehindSubject_of_hasSubject (.inr (by decide)) hsubject).mp h).1 rfl

end KoalemOS.Libc
