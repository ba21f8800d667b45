import KoalemOS.Libc.StrtolEnd

/-!
# The rounds of the digit loop

A round of the loop of `strtol` adds one digit (`Rounds`). The range test is stricter than it
has to be: it lets a digit through when the number so far and the digit together are at most
the limit divided by the base (`Accepted`). So every number that occurs is in the range of
`long`, and so is what the rounds compute on the way (`digitLoop_noOverflow`).
-/

namespace KoalemOS.Libc

variable {neg : Bool} {base ret ret' d n : Int} {cur cur' q : Str} {c : UInt8}

/-! ## Rounds -/

/-- From `ret` and `cur` the loop gets to `ret'` and `cur'`, a digit a round. -/
inductive Rounds (neg : Bool) (base : Int) : Int → Str → Int → Str → Prop where
  | refl (ret : Int) (cur : Str) : Rounds neg base ret cur ret cur
  | step {ret ret' : Int} {c : UInt8} {cur cur' : Str} :
      (digInBase base).eval (charVal c) = true → outOfRange neg base ret (digitVal (charVal c)) = false →
      Rounds neg base (addDigit neg base ret (digitVal (charVal c))) cur ret' cur' →
      Rounds neg base ret (c :: cur) ret' cur'

/-- What the loop returns is what it returns from any round it gets to. -/
theorem Rounds.digitLoop_eq (h : Rounds neg base ret cur ret' cur') :
    digitLoop neg base ret cur = digitLoop neg base ret' cur' := by
  induction h with
  | refl => rfl
  | step hdigit hrange _ ih => rw [digitLoop, if_pos hdigit, hrange, ← ih]; rfl

/-- The loop gets to a character that is no digit, or to a digit it rejects. -/
theorem exists_rounds (neg : Bool) (base ret : Int) (cur : Str) :
    ∃ ret' cur', Rounds neg base ret cur ret' cur' ∧
      ∀ c post, cur' = c :: post → (digInBase base).eval (charVal c) = true →
        outOfRange neg base ret' (digitVal (charVal c)) = true := by
  induction cur generalizing ret with
  | nil => exact ⟨ret, [], .refl ret [], fun c post h => by cases h⟩
  | cons c cur ih =>
    by_cases hnext : (digInBase base).eval (charVal c) = true ∧
        outOfRange neg base ret (digitVal (charVal c)) = false
    · obtain ⟨ret', cur', hrounds, hlast⟩ := ih (addDigit neg base ret (digitVal (charVal c)))
      exact ⟨ret', cur', .step hnext.1 hnext.2 hrounds, hlast⟩
    · refine ⟨ret, c :: cur, .refl ret (c :: cur), ?_⟩
      intro x post heq hdigit
      obtain ⟨rfl, rfl⟩ := List.cons.inj heq
      by_contra hrange
      exact hnext ⟨hdigit, by simpa using hrange⟩

/-! ## The range test -/

/-- The largest absolute value of a number with that sign. -/
def limit (neg : Bool) : Int := if neg then 2 ^ 63 else 2 ^ 63 - 1

theorem limit_bounds (neg : Bool) : 2 ^ 63 - 1 ≤ limit neg ∧ limit neg ≤ 2 ^ 63 := by
  cases neg <;> decide

theorem digit_bounds (h : validIn base c = true) : 0 ≤ digit c ∧ digit c < base ∧ digit c ≤ 35 := by
  unfold validIn digitOf at h
  unfold digit digitOf
  grind

/-- A quotient of the limit leaves room for a digit. -/
theorem limit_div_bounds (h₁ : 2 ≤ base) (neg : Bool) :
    0 ≤ limit neg / base ∧ limit neg / base * base ≤ limit neg ∧ limit neg / base ≤ 2 ^ 62 := by
  obtain ⟨hlow, hhigh⟩ := limit_bounds neg
  have hquot : 0 ≤ limit neg / base := Int.ediv_nonneg (by omega) (by omega)
  have hprod : limit neg / base * base ≤ limit neg := Int.ediv_mul_le _ (by omega)
  have htwo : limit neg / base * 2 ≤ limit neg / base * base := Int.mul_le_mul_of_nonneg_left h₁ hquot
  exact ⟨hquot, hprod, by omega⟩

/-- The quotients of the source, which round towards zero. -/
theorem tdiv_limit (base : Int) :
    longMin.tdiv base = -(limit true / base) ∧ longMax.tdiv base = limit false / base := by
  constructor
  · rw [show longMin = -(2 ^ 63) from rfl, Int.neg_tdiv, Int.tdiv_eq_ediv_of_nonneg (by decide)]
    rfl
  · exact Int.tdiv_eq_ediv_of_nonneg (by decide)

/-- The test compares the number and the digit with the quotient of the limit. -/
theorem outOfRange_iff (neg : Bool) (base n d : Int) :
    outOfRange neg base (signed neg n) d = true ↔ limit neg / base < n + d := by
  obtain ⟨hmin, hmax⟩ := tdiv_limit base
  cases neg with
  | false =>
    show decide (n > longMax.tdiv base - d) = true ↔ _
    rw [hmax, decide_eq_true_eq]
    omega
  | true =>
    show decide (-n < longMin.tdiv base + d) = true ↔ _
    rw [hmin, decide_eq_true_eq]
    omega

theorem not_outOfRange_iff (neg : Bool) (base n d : Int) :
    outOfRange neg base (signed neg n) d = false ↔ n + d ≤ limit neg / base := by
  rw [← Bool.not_eq_true, outOfRange_iff]
  omega

/-! ## What a round computes -/

/-- A value of a `long`. -/
def InLong (x : Int) : Prop := longMin ≤ x ∧ x ≤ longMax

/-- A number the loop may have in hand. -/
def InRange (neg : Bool) (ret : Int) : Prop := ∃ n, ret = signed neg n ∧ 0 ≤ n ∧ n ≤ limit neg

theorem inRange_zero (neg : Bool) : InRange neg 0 := by
  refine ⟨0, ?_, Int.le_refl 0, ?_⟩
  · cases neg <;> rfl
  · cases neg <;> decide

theorem InRange.inLong (h : InRange neg ret) : InLong ret := by
  obtain ⟨n, rfl, h₀, hle⟩ := h
  cases neg with
  | false =>
    change n ≤ 2 ^ 63 - 1 at hle
    show -2 ^ 63 ≤ n ∧ n ≤ 2 ^ 63 - 1
    omega
  | true =>
    change n ≤ 2 ^ 63 at hle
    show -2 ^ 63 ≤ -n ∧ -n ≤ 2 ^ 63 - 1
    omega

/-- A digit the test lets through keeps the product and the new number below the limit. -/
theorem mul_add_le (h₁ : 2 ≤ base) (hd : 0 ≤ d) (h : n + d ≤ limit neg / base) :
    n * base ≤ limit neg ∧ n * base + d ≤ limit neg := by
  obtain ⟨-, hle, -⟩ := limit_div_bounds h₁ neg
  have hmul : (n + d) * base ≤ limit neg / base * base := Int.mul_le_mul_of_nonneg_right h (by omega)
  have hdigit : d * 1 ≤ d * base := Int.mul_le_mul_of_nonneg_left (by omega) hd
  rw [Int.add_mul] at hmul
  constructor <;> omega

theorem addDigit_inRange (h₁ : 2 ≤ base) (hd : 0 ≤ d) (h : InRange neg ret)
    (hrange : outOfRange neg base ret d = false) : InRange neg (addDigit neg base ret d) := by
  obtain ⟨n, rfl, hn, -⟩ := h
  obtain ⟨-, hnew⟩ := mul_add_le h₁ hd ((not_outOfRange_iff neg base n d).mp hrange)
  refine ⟨n * base + d, ?_, Int.add_nonneg (Int.mul_nonneg hn (by omega)) hd, hnew⟩
  cases neg with
  | false => rfl
  | true =>
    show -n * base - d = -(n * base + d)
    rw [Int.neg_mul, Int.neg_add, Int.sub_eq_add_neg]

/-- The loop has numbers in range only. -/
theorem Rounds.inRange (h : Rounds neg base ret cur ret' cur') (h₁ : 2 ≤ base) (h₂ : base ≤ 36)
    (hret : InRange neg ret) : InRange neg ret' := by
  induction h with
  | refl => exact hret
  | step hdigit hrange _ ih =>
    rw [digInBase_eval h₂] at hdigit
    rw [digitVal_charVal hdigit] at hrange ih
    exact ih (addDigit_inRange h₁ (digit_bounds hdigit).1 hret hrange)

/-- No `long` operation of a round overflows: the two bounds of the range test, and the product
and the sum where the digit is added. -/
structure NoOverflow (neg : Bool) (base ret d : Int) : Prop where
  lower : InLong (longMin.tdiv base) ∧ InLong (longMin.tdiv base + d)
  upper : InLong (longMax.tdiv base) ∧ InLong (longMax.tdiv base - d)
  product : outOfRange neg base ret d = false → InLong (ret * base)
  sum : outOfRange neg base ret d = false → InLong (addDigit neg base ret d)

theorem noOverflow (h₁ : 2 ≤ base) (hd : 0 ≤ d) (hd' : d ≤ 35) (h : InRange neg ret) :
    NoOverflow neg base ret d := by
  obtain ⟨hmin, hmax⟩ := tdiv_limit base
  obtain ⟨hm₀, -, hm⟩ := limit_div_bounds h₁ true
  obtain ⟨hx₀, -, hx⟩ := limit_div_bounds h₁ false
  refine ⟨?_, ?_, fun hrange => ?_, fun hrange => (addDigit_inRange h₁ hd h hrange).inLong⟩
  · rw [hmin]
    unfold InLong longMin longMax
    omega
  · rw [hmax]
    unfold InLong longMin longMax
    omega
  · obtain ⟨n, rfl, hn, -⟩ := h
    have hle := (not_outOfRange_iff neg base n d).mp hrange
    have hprod : InRange neg (signed neg n * base) := by
      refine ⟨n * base, ?_, Int.mul_nonneg hn (by omega), (mul_add_le h₁ hd hle).1⟩
      cases neg with
      | false => rfl
      | true => exact Int.neg_mul n base
    exact hprod.inLong

/-! ## Where the loop starts -/

/-- What stands before the digits, and the base in use: `0x` before a letter or digit is the
prefix of base 16, any other `0` before one the prefix of base 8. -/
def numberAt (base : Int) (t : Str) : Int × Str :=
  if t.getD 0 0 = 48 ∧ t.getD 1 0 = 120 ∧ (base = 16 ∨ base = 0) then
    if validIn 36 (t.getD 2 0) = true then (16, t.drop 2) else (orTen base, t)
  else if t.getD 0 0 = 48 ∧ (base = 8 ∨ base = 0) ∧ validIn 36 (t.getD 1 0) = true then (8, t.drop 1)
  else (orTen base, t)

theorem detectBase_eq (base : Int) (t : Str) : detectBase base t = some (numberAt base t) := by
  unfold numberAt
  by_cases hhead : t.getD 0 0 = 48
  · obtain ⟨r, rfl⟩ := exists_zero_of_head hhead
    rw [detectBase_zero]
    simp only [List.getD_cons_zero, List.getD_cons_succ, true_and, List.drop_succ_cons, List.drop_zero,
      List.drop_one]
    split_ifs <;> rfl
  · rw [detectBase_of_head hhead, if_neg (fun h => hhead h.1), if_neg (fun h => hhead h.1)]

theorem numberAt_base (hb : ValidBase base) (t : Str) : 2 ≤ (numberAt base t).1 ∧ (numberAt base t).1 ≤ 36 := by
  obtain ⟨h₁, h₂⟩ := orTen_bounds hb
  unfold numberAt
  split_ifs <;> simp only <;> omega

/-- Where the loop starts: behind white space, a `-` and the prefix. -/
theorem scanStart_numberAt (s : Str) (base : Int) :
    scanStart s base = some ⟨(behindSpaces s).getD 0 0 = 45,
      (numberAt base (behindMinus (behindSpaces s))).1, (numberAt base (behindMinus (behindSpaces s))).2⟩ := by
  rw [scanStart_eq, detectBase_eq]
  rfl

theorem validBase_iff : ¬(base > 36 ∨ base < 0 ∨ base = 1) ↔ ValidBase base := by
  unfold ValidBase
  omega

/-- **No overflow.** For every string and every base that is accepted, in every round the loop
gets to, all `long` computations stay in range. -/
theorem digitLoop_noOverflow {s : Str} {base : Int} (hb : ¬(base > 36 ∨ base < 0 ∨ base = 1)) {start : Start}
    (hstart : scanStart s base = some start)
    (h : Rounds start.neg start.base 0 start.cur ret (c :: cur))
    (hdigit : (digInBase start.base).eval (charVal c) = true) :
    NoOverflow start.neg start.base ret (digitVal (charVal c)) := by
  rw [scanStart_numberAt] at hstart
  obtain rfl := Option.some.inj hstart
  obtain ⟨h₁, h₂⟩ := numberAt_base (validBase_iff.mp hb) (behindMinus (behindSpaces s))
  rw [digInBase_eval h₂] at hdigit
  obtain ⟨hd, -, hd'⟩ := digit_bounds hdigit
  rw [digitVal_charVal hdigit]
  exact noOverflow h₁ hd hd' (h.inRange h₁ h₂ (inRange_zero _))

/-- The second digit of `-42`. -/
theorem digitLoop_noOverflow_fortyTwo : NoOverflow true 10 (-4) (digitVal (charVal 50)) :=
  @digitLoop_noOverflow (-4) [] 50 [45, 52, 50] 10 (by decide) ⟨true, 10, [52, 50]⟩ rfl
    (.step (by decide) (by decide) (.refl _ _)) (by decide)

end KoalemOS.Libc
