import KoalemOS.Libc.Strtol
import Mathlib.Data.List.TakeWhile

/-!
# Subject sequences

What the C standard lets `strtol` read, as a grammar: white space, a sign, the prefix of the
base and digits. The longest such prefix of a string is found by a scan (`numeral`,
`meetsGrammar_iff`).
-/

namespace KoalemOS.Libc

/-! ## The grammar -/

/-- White space of the C locale: space, tab, line feed, vertical tab, form feed, carriage
return. -/
def isSpaceChar (c : UInt8) : Bool := c.toNat ∈ [32, 9, 10, 11, 12, 13]

/-- The value of a digit or letter. -/
def digitOf (c : UInt8) : Option Int :=
  if 48 ≤ c.toNat ∧ c.toNat ≤ 57 then some (c.toNat - 48)
  else if 97 ≤ c.toNat ∧ c.toNat ≤ 122 then some (c.toNat - 87)
  else if 65 ≤ c.toNat ∧ c.toNat ≤ 90 then some (c.toNat - 55)
  else none

/-- A digit valid in the base. -/
def validIn (base : Int) (c : UInt8) : Bool :=
  match digitOf c with
  | some v => v < base
  | none => false

/-- The base in use and the prefix a base allows before the digits. -/
inductive BasePrefix : Int → Int → Str → Str → Prop where
  | given {base : Int} {digits : Str} : base ≠ 0 → BasePrefix base base [] digits
  | hex {base : Int} {x : UInt8} {digits : Str} : base = 0 ∨ base = 16 → x = 120 ∨ x = 88 →
      BasePrefix base 16 [48, x] digits
  | octal {digits : Str} : BasePrefix 0 8 [] (48 :: digits)
  | decimal {c : UInt8} {digits : Str} : c ≠ 48 → BasePrefix 0 10 [] (c :: digits)

/-- The part behind the sign. -/
structure IsNumeral (base used : Int) (w : Str) : Prop where
  split : ∃ pre digits, w = pre ++ digits ∧ BasePrefix base used pre digits ∧ digits ≠ [] ∧
    ∀ c ∈ digits, validIn used c = true

/-- A sign, or none. -/
def IsSign (w : Str) : Prop := w = [] ∨ w = [43] ∨ w = [45]

/-- A subject sequence with the white space before it. -/
structure IsSubject (base used : Int) (w : Str) : Prop where
  split : ∃ spaces sign body, w = spaces ++ (sign ++ body) ∧ (∀ c ∈ spaces, isSpaceChar c = true) ∧
    IsSign sign ∧ IsNumeral base used body

/-- The longest prefix of `s` that is a subject sequence. -/
structure LongestSubject (base used : Int) (s w : Str) : Prop where
  isPrefix : w <+: s
  subject : IsSubject base used w
  longest : ∀ used' w', w' <+: s → IsSubject base used' w' → w'.length ≤ w.length

/-- The pointer `cur` is behind the longest subject sequence, and `used` the base the grammar
prescribes; or there is no subject sequence, and the pointer is the string itself. -/
def MeetsGrammar (base : Int) (s : Str) (used : Int) (cur : Str) : Prop :=
  (∃ w, LongestSubject base used s w ∧ cur = s.drop w.length) ∨
    (∀ used w, w <+: s → ¬IsSubject base used w) ∧ cur = s

/-! ## Characters -/

theorem validIn_mono {b b' : Int} (h : b ≤ b') {c : UInt8} (hc : validIn b c = true) :
    validIn b' c = true := by
  unfold validIn at hc ⊢
  cases hd : digitOf c with
  | none => rw [hd] at hc; exact hc
  | some v =>
    rw [hd] at hc
    simp only [decide_eq_true_eq] at hc ⊢
    omega

theorem not_space_of_validIn {b : Int} {c : UInt8} (h : validIn b c = true) :
    isSpaceChar c = false := by
  by_contra hc
  simp only [Bool.not_eq_false, isSpaceChar, List.mem_cons, List.not_mem_nil, or_false,
    decide_eq_true_eq] at hc
  unfold validIn digitOf at h
  rcases hc with hc | hc | hc | hc | hc | hc <;> simp [hc] at h

theorem validIn_zero {b : Int} (hb : 0 < b) : validIn b 48 = true := by
  simpa [validIn, digitOf] using hb

/-- A sign is no digit. -/
theorem not_sign_of_validIn {b : Int} {c : UInt8} (h : validIn b c = true) : c ≠ 43 ∧ c ≠ 45 := by
  refine ⟨?_, ?_⟩ <;> rintro rfl <;> cases h

/-! ## The numeral behind the sign -/

/-- `0x` or `0X` before a hex digit, where the base allows it. -/
def HexPrefixed (base : Int) (t : Str) : Prop :=
  (base = 0 ∨ base = 16) ∧
    ∃ x h rest, t = 48 :: x :: h :: rest ∧ (x = 120 ∨ x = 88) ∧ validIn 16 h = true

instance (base : Int) (t : Str) : Decidable (HexPrefixed base t) :=
  match t with
  | c :: x :: h :: rest =>
    decidable_of_iff
      ((base = 0 ∨ base = 16) ∧ c = 48 ∧ (x = 120 ∨ x = 88) ∧ validIn 16 h = true)
      ⟨fun ⟨h1, h2, h3, h4⟩ => ⟨h1, x, h, rest, by rw [h2], h3, h4⟩,
        fun ⟨h1, _, _, _, heq, h3, h4⟩ => by
          cases heq
          exact ⟨h1, rfl, h3, h4⟩⟩
  | [] => .isFalse fun ⟨_, _, _, _, heq, _⟩ => by cases heq
  | [_] => .isFalse fun ⟨_, _, _, _, heq, _⟩ => by cases heq
  | [_, _] => .isFalse fun ⟨_, _, _, _, heq, _⟩ => by cases heq

/-- The base of a numeral without `0x`. -/
def plainBase (base : Int) (t : Str) : Int :=
  if base ≠ 0 then base else if t.head? = some 48 then 8 else 10

/-- The base the grammar prescribes, and where the digits start. -/
def numeral (base : Int) (t : Str) : Int × Str :=
  if HexPrefixed base t then (16, t.drop 2) else (plainBase base t, t)

/-- The digits of the numeral at the start of `t`. -/
def digitsAt (base : Int) (t : Str) : Str :=
  (numeral base t).2.takeWhile (validIn (numeral base t).1)

/-- What is behind the numeral at the start of `t`. -/
def behindDigits (base : Int) (t : Str) : Str :=
  (numeral base t).2.dropWhile (validIn (numeral base t).1)

/-- The numeral at the start of `t`. -/
def numeralAt (base : Int) (t : Str) : Str :=
  (if HexPrefixed base t then t.take 2 else []) ++ digitsAt base t

/-- A prefix of `t` of valid digits is no longer than the digits at its start. -/
theorem length_le_takeWhile {p : UInt8 → Bool} {w t : Str} (hw : w <+: t) (h : ∀ c ∈ w, p c = true) :
    w.length ≤ (t.takeWhile p).length := by
  obtain ⟨r, rfl⟩ := hw
  rw [List.takeWhile_append_of_pos h, List.length_append]
  exact Nat.le_add_right _ _

theorem numeralAt_append (base : Int) (t : Str) : numeralAt base t ++ behindDigits base t = t := by
  unfold numeralAt digitsAt behindDigits numeral
  split_ifs with h
  · rw [List.append_assoc, List.takeWhile_append_dropWhile]
    exact List.take_append_drop 2 t
  · rw [List.nil_append]
    exact List.takeWhile_append_dropWhile

theorem behindDigits_length_le (base : Int) (t : Str) : (behindDigits base t).length ≤ t.length := by
  conv_rhs => rw [← numeralAt_append base t]
  rw [List.length_append]
  exact Nat.le_add_left _ _

/-- The scan finds a numeral. -/
theorem isNumeral_numeralAt {base : Int} {t : Str} (h : digitsAt base t ≠ []) :
    IsNumeral base (numeral base t).1 (numeralAt base t) := by
  have hvalid : ∀ c ∈ digitsAt base t, validIn (numeral base t).1 c = true := fun c hc =>
    List.mem_takeWhile_imp hc
  refine ⟨⟨_, digitsAt base t, rfl, ?_, h, hvalid⟩⟩
  by_cases hhex : HexPrefixed base t
  · obtain ⟨hbase, x, d, rest, rfl, hx, -⟩ := id hhex
    rw [if_pos hhex, numeral, if_pos hhex]
    exact .hex hbase hx
  · rw [if_neg hhex]
    have hnum : numeral base t = (plainBase base t, t) := if_neg hhex
    obtain ⟨c, rest, hd⟩ := List.exists_cons_of_ne_nil h
    have hc : t.head? = some c := by
      have hpre : digitsAt base t <+: t := by
        rw [digitsAt, hnum]
        exact List.takeWhile_prefix _
      obtain ⟨r, hr⟩ := hpre
      rw [← hr, hd]
      rfl
    rw [hnum, hd]
    show BasePrefix base (plainBase base t) [] (c :: rest)
    unfold plainBase
    split_ifs with h₁ h₂
    · exact .given h₁
    · obtain rfl : base = 0 := not_not.mp h₁
      obtain rfl : c = 48 := Option.some.inj (hc.symm.trans h₂)
      exact .octal
    · obtain rfl : base = 0 := not_not.mp h₁
      exact .decimal fun hc' => h₂ (hc' ▸ hc)

/-- It starts with neither white space nor a sign. -/
theorem IsNumeral.head {base used : Int} {w : Str} (h : IsNumeral base used w) :
    ∃ c rest, w = c :: rest ∧ isSpaceChar c = false ∧ c ≠ 43 ∧ c ≠ 45 := by
  obtain ⟨pre, digits, rfl, hpre, hne, hvalid⟩ := h.split
  obtain ⟨c, rest, rfl⟩ := List.exists_cons_of_ne_nil hne
  have hc := hvalid c List.mem_cons_self
  have hdigit := And.intro (not_space_of_validIn hc) (not_sign_of_validIn hc)
  cases hpre with
  | given => exact ⟨c, rest, rfl, hdigit⟩
  | hex => exact ⟨48, _, rfl, by decide⟩
  | octal => exact ⟨48, rest, rfl, hdigit⟩
  | decimal => exact ⟨c, rest, rfl, hdigit⟩

/-- Behind `0x` and a hex digit a numeral without the prefix ends after the `0`. -/
theorem HexPrefixed.plain_short {base b : Int} {t w : Str} (h : HexPrefixed base t) (hb : b ≤ 16)
    (hw : w <+: t) (hvalid : ∀ c ∈ w, validIn b c = true) : w.length ≤ 1 := by
  obtain ⟨-, x, d, rest, rfl, hx, -⟩ := h
  match w, hw with
  | [], _ => exact Nat.zero_le _
  | [_], _ => exact Nat.le_refl _
  | c :: y :: w, hw =>
    obtain ⟨-, hw'⟩ := List.cons_prefix_cons.mp hw
    obtain ⟨rfl, -⟩ := List.cons_prefix_cons.mp hw'
    have hy : validIn 16 y = true := validIn_mono hb (hvalid y (by simp))
    rcases hx with rfl | rfl <;> cases hy

theorem HexPrefixed.three_le {base : Int} {t : Str} (h : HexPrefixed base t) :
    3 ≤ (numeralAt base t).length := by
  have hnum : numeral base t = (16, t.drop 2) := if_pos h
  rw [numeralAt, if_pos h, digitsAt, hnum]
  obtain ⟨-, x, d, rest, rfl, -, hd⟩ := h
  simp [hd]

/-- No numeral at the start of `t` is longer than the one the scan finds, and one as long has
the same base. -/
theorem IsNumeral.le {base used : Int} {t w : Str} (h : IsNumeral base used w) (hw : w <+: t) :
    w.length ≤ (numeralAt base t).length ∧
      (w.length = (numeralAt base t).length → used = (numeral base t).1) := by
  obtain ⟨pre, digits, rfl, hpre, hne, hvalid⟩ := h.split
  by_cases hhex : HexPrefixed base t
  · have hnum : numeral base t = (16, t.drop 2) := if_pos hhex
    have hthree := hhex.three_le
    -- without the prefix it ends too early
    have hshort : ∀ b : Int, b ≤ 16 → (∀ c ∈ digits, validIn b c = true) → digits <+: t →
        digits.length ≤ (numeralAt base t).length ∧
          (digits.length = (numeralAt base t).length → used = (numeral base t).1) := by
      intro b hb hv hp
      have := hhex.plain_short hb hp hv
      exact ⟨by omega, fun heq => by omega⟩
    cases hpre with
    | given h0 =>
      have h16 : base ≤ 16 := by
        rcases hhex.1 with rfl | rfl <;> decide
      exact hshort base h16 hvalid hw
    | hex _ hx =>
      refine ⟨?_, fun _ => by rw [hnum]⟩
      rw [numeralAt, if_pos hhex, digitsAt, hnum]
      obtain ⟨-, y, d, rest, rfl, -, -⟩ := hhex
      have hd : digits <+: (d :: rest) := by
        obtain ⟨-, hw⟩ := List.cons_prefix_cons.mp hw
        exact (List.cons_prefix_cons.mp hw).2
      have := length_le_takeWhile hd hvalid
      simp only [List.length_append, List.length_cons, List.length_nil, List.drop_succ_cons,
        List.drop_zero, List.take_succ_cons, List.take_zero] at this ⊢
      omega
    | octal => exact hshort 8 (by decide) hvalid hw
    | decimal => exact hshort 10 (by decide) hvalid hw
  · have hnum : numeral base t = (plainBase base t, t) := if_neg hhex
    -- the scan takes the same digits in the same base
    have hplain : digits <+: t → plainBase base t = used →
        digits.length ≤ (numeralAt base t).length ∧
          (digits.length = (numeralAt base t).length → used = (numeral base t).1) := by
      intro hp heq
      rw [numeralAt, if_neg hhex, List.nil_append, digitsAt, hnum]
      refine ⟨?_, fun _ => heq.symm⟩
      rw [heq]
      exact length_le_takeWhile hp hvalid
    have hhead : ∀ c r, digits = c :: r → digits <+: t → t.head? = some c := by
      rintro c r rfl ⟨q, rfl⟩
      rfl
    cases hpre with
    | given h0 => exact hplain hw (if_pos h0)
    | hex hbase hx =>
      obtain ⟨d, rest, rfl⟩ := List.exists_cons_of_ne_nil hne
      obtain ⟨q, rfl⟩ := hw
      exact absurd ⟨hbase, _, d, rest ++ q, rfl, hx, hvalid d List.mem_cons_self⟩ hhex
    | octal =>
      have hh := hhead 48 _ rfl hw
      exact hplain hw (by rw [plainBase, if_neg (by decide), if_pos hh])
    | @decimal c _ hc =>
      have hh := hhead c _ rfl hw
      refine hplain hw ?_
      rw [plainBase, if_neg (by decide), if_neg]
      rw [hh]
      exact fun heq => hc (Option.some.inj heq)

/-- Without digits at its start `t` starts with no numeral. -/
theorem not_isNumeral {base used : Int} {t w : Str} (h : digitsAt base t = []) (hw : w <+: t) :
    ¬IsNumeral base used w := by
  intro hn
  have hhex : ¬HexPrefixed base t := fun hhex => by
    have := hhex.three_le
    rw [numeralAt, h, if_pos hhex, List.append_nil] at this
    have := List.length_take_le 2 t
    omega
  have hle := (hn.le hw).1
  rw [numeralAt, h, if_neg hhex] at hle
  obtain ⟨c, rest, rfl, -⟩ := hn.head
  exact absurd hle (by simp)

/-! ## White space and the sign -/

/-- The sign at the start of a string. -/
def signAt : Str → Str
  | 43 :: _ => [43]
  | 45 :: _ => [45]
  | _ => []

/-- What is behind the white space of a string. -/
def behindSpaces (s : Str) : Str := s.dropWhile isSpaceChar

/-- What is behind the sign at the start of a string. -/
def behindSign (s : Str) : Str := s.drop (signAt s).length

theorem signAt_append_behindSign (s : Str) : signAt s ++ behindSign s = s := by
  unfold behindSign signAt
  split <;> rfl

theorem isSign_signAt (s : Str) : IsSign (signAt s) := by
  unfold signAt IsSign
  split <;> simp

theorem signAt_of_head {c : UInt8} {s : Str} (h₁ : c ≠ 43) (h₂ : c ≠ 45) : signAt (c :: s) = [] := by
  unfold signAt
  split
  · rename_i heq
    exact absurd (List.cons.inj heq).1 h₁
  · rename_i heq
    exact absurd (List.cons.inj heq).1 h₂
  · rfl

/-- A subject sequence is the white space and the sign of the string, and a numeral. -/
theorem IsSubject.split_at {base used : Int} {s w : Str} (h : IsSubject base used w) (hw : w <+: s) :
    ∃ body, w = s.takeWhile isSpaceChar ++ (signAt (behindSpaces s) ++ body) ∧
      body <+: behindSign (behindSpaces s) ∧ IsNumeral base used body := by
  obtain ⟨spaces, sign, body, rfl, hspaces, hsign, hbody⟩ := h.split
  obtain ⟨r, rfl⟩ := hw
  obtain ⟨c, rest, rfl, hc, h43, h45⟩ := hbody.head
  -- the character behind the white space is none
  have hstop : (sign ++ (c :: rest ++ r)).takeWhile isSpaceChar = [] ∧
      (sign ++ (c :: rest ++ r)).dropWhile isSpaceChar = sign ++ (c :: rest ++ r) := by
    have h43' : isSpaceChar 43 = false := by decide
    have h45' : isSpaceChar 45 = false := by decide
    rcases hsign with rfl | rfl | rfl
    · simp [hc]
    · simp [h43']
    · simp [h45']
  have htake : (spaces ++ (sign ++ c :: rest) ++ r).takeWhile isSpaceChar = spaces := by
    rw [List.append_assoc, List.append_assoc, List.takeWhile_append_of_pos hspaces, hstop.1,
      List.append_nil]
  have hbehind : behindSpaces (spaces ++ (sign ++ c :: rest) ++ r) = sign ++ (c :: rest ++ r) := by
    rw [behindSpaces, List.append_assoc, List.append_assoc, List.dropWhile_append_of_pos hspaces,
      hstop.2]
  have hsignAt : signAt (sign ++ (c :: rest ++ r)) = sign := by
    rcases hsign with rfl | rfl | rfl
    · exact signAt_of_head h43 h45
    · rfl
    · rfl
  refine ⟨c :: rest, by rw [htake, hbehind, hsignAt], ?_, hbody⟩
  rw [hbehind, behindSign, hsignAt, List.drop_left]
  exact List.prefix_append _ _

/-- A numeral behind the white space and the sign is a subject sequence. -/
theorem isSubject_of_numeral {base used : Int} {s body : Str} (h : IsNumeral base used body) :
    IsSubject base used (s.takeWhile isSpaceChar ++ (signAt (behindSpaces s) ++ body)) :=
  ⟨⟨_, _, body, rfl, fun _ hc => List.mem_takeWhile_imp hc, isSign_signAt _, h⟩⟩

theorem spaces_sign_append (s : Str) :
    s.takeWhile isSpaceChar ++ (signAt (behindSpaces s) ++ behindSign (behindSpaces s)) = s := by
  rw [signAt_append_behindSign]
  exact List.takeWhile_append_dropWhile

/-- The subject sequence at the start of a string. -/
def subjectAt (base : Int) (s : Str) : Str :=
  s.takeWhile isSpaceChar ++
    (signAt (behindSpaces s) ++ numeralAt base (behindSign (behindSpaces s)))

theorem subjectAt_append (base : Int) (s : Str) :
    subjectAt base s ++ behindDigits base (behindSign (behindSpaces s)) = s := by
  rw [subjectAt, List.append_assoc, List.append_assoc, numeralAt_append]
  exact spaces_sign_append s

/-- Some prefix of the string is a subject sequence. -/
def HasSubject (base : Int) (s : Str) : Prop := ∃ used w, w <+: s ∧ IsSubject base used w

theorem hasSubject_iff {base : Int} {s : Str} :
    HasSubject base s ↔ digitsAt base (behindSign (behindSpaces s)) ≠ [] := by
  constructor
  · rintro ⟨used, w, hw, hsub⟩ hnil
    obtain ⟨body, -, hbody, hnum⟩ := hsub.split_at hw
    exact not_isNumeral hnil hbody hnum
  · intro h
    exact ⟨_, subjectAt base s, ⟨_, subjectAt_append base s⟩,
      isSubject_of_numeral (isNumeral_numeralAt h)⟩

/-- The grammar on a string that starts with a subject sequence. -/
theorem meetsGrammar_of_hasSubject {base : Int} {s : Str} (h : HasSubject base s) {used : Int}
    {cur : Str} : MeetsGrammar base s used cur ↔
      used = (numeral base (behindSign (behindSpaces s))).1 ∧
        cur = behindDigits base (behindSign (behindSpaces s)) := by
  have hsubject : IsSubject base _ (subjectAt base s) :=
    isSubject_of_numeral (isNumeral_numeralAt (hasSubject_iff.mp h))
  have hpre : subjectAt base s <+: s := ⟨_, subjectAt_append base s⟩
  have hdrop : s.drop (subjectAt base s).length = behindDigits base (behindSign (behindSpaces s)) := by
    have hleft := @List.drop_left _ (subjectAt base s) (behindDigits base (behindSign (behindSpaces s)))
    rwa [subjectAt_append] at hleft
  have hle : ∀ used' w', w' <+: s → IsSubject base used' w' →
      w'.length ≤ (subjectAt base s).length ∧ (w'.length = (subjectAt base s).length →
        used' = (numeral base (behindSign (behindSpaces s))).1) := by
    intro used' w' hw' hsub
    obtain ⟨body, rfl, hbody, hnum⟩ := hsub.split_at hw'
    obtain ⟨hlen, hbase⟩ := hnum.le hbody
    simp only [subjectAt, List.length_append]
    exact ⟨by omega, fun heq => hbase (by omega)⟩
  constructor
  · rintro (⟨w', hlong, rfl⟩ | ⟨hnone, -⟩)
    · have h₁ := hlong.longest _ _ hpre hsubject
      obtain ⟨h₂, h₃⟩ := hle _ w' hlong.isPrefix hlong.subject
      have heq : w'.length = (subjectAt base s).length := by omega
      exact ⟨h₃ heq, by rw [heq, hdrop]⟩
    · exact absurd hsubject (hnone _ _ hpre)
  · rintro ⟨rfl, rfl⟩
    exact .inl ⟨_, ⟨hpre, hsubject, fun u w' hw' hsub => (hle u w' hw' hsub).1⟩, hdrop.symm⟩

/-- The grammar on a string that does not. -/
theorem meetsGrammar_of_not_hasSubject {base : Int} {s : Str} (h : ¬HasSubject base s) {used : Int}
    {cur : Str} : MeetsGrammar base s used cur ↔ cur = s := by
  have hnone : ∀ used w, w <+: s → ¬IsSubject base used w := fun used w hw hsub =>
    h ⟨used, w, hw, hsub⟩
  constructor
  · rintro (⟨w, hlong, -⟩ | ⟨-, heq⟩)
    · exact absurd hlong.subject (hnone _ w hlong.isPrefix)
    · exact heq
  · intro heq
    exact .inr ⟨hnone, heq⟩

end KoalemOS.Libc
