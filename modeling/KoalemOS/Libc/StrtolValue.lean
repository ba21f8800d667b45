import KoalemOS.Libc.DigitRounds
import Mathlib.Data.List.Induction

/-!
# The value `strtol` returns

The range test of `strtol` rejects numbers that fit: it compares the number so far and the next
digit with the limit divided by the base. A number is returned exactly when it passes this
test, or is out of range and the digits behind the first that is rejected can be skipped within
the string (`strtol_value_iff`).
-/

namespace KoalemOS.Libc

variable {neg : Bool} {base ret' : Int} {cur cur' p q ds rest post post' t : Str} {c : UInt8}

/-! ## Numbers that pass the range test -/

/-- The number without its last digit and the last digit are at most the limit divided by the
base. -/
def Accepted (neg : Bool) (base : Int) (q : Str) : Prop :=
  valueOf base q / base + valueOf base q % base ≤ limit neg / base

theorem valueOf_nonneg (h₁ : 2 ≤ base) (h : ∀ x ∈ q, validIn base x = true) : 0 ≤ valueOf base q := by
  induction q using List.reverseRecOn with
  | nil => exact Int.le_refl 0
  | append_singleton q c ih =>
    have hq := ih fun x hx => h x (List.mem_append_left _ hx)
    have hc := (digit_bounds (h c (by simp))).1
    rw [valueOf_append]
    exact Int.add_nonneg (Int.mul_nonneg hq (by omega)) hc

theorem accepted_nil (h₁ : 2 ≤ base) (neg : Bool) : Accepted neg base [] := by
  show (0 : Int) / base + 0 % base ≤ _
  rw [Int.zero_ediv, Int.zero_emod]
  exact (limit_div_bounds h₁ neg).1

/-- What the last digit passes is the range test of its round. -/
theorem accepted_append (h₁ : 2 ≤ base) (hc : validIn base c = true) :
    Accepted neg base (q ++ [c]) ↔ valueOf base q + digit c ≤ limit neg / base := by
  obtain ⟨h₀, hlt, -⟩ := digit_bounds hc
  unfold Accepted
  rw [valueOf_append, Int.add_comm (valueOf base q * base), Int.add_mul_ediv_right _ _ (by omega),
    Int.ediv_eq_zero_of_lt h₀ hlt, Int.zero_add, Int.add_mul_emod_self_right, Int.emod_eq_of_lt h₀ hlt]

/-- A number that passes is in range. -/
theorem Accepted.le_limit (h₁ : 2 ≤ base) (hq : ∀ x ∈ q, validIn base x = true) (h : Accepted neg base q) :
    valueOf base q ≤ limit neg := by
  induction q using List.reverseRecOn with
  | nil =>
    show 0 ≤ limit neg
    have := (limit_bounds neg).1
    omega
  | append_singleton q c ih =>
    have hc := hq c (by simp)
    rw [valueOf_append]
    exact (mul_add_le h₁ (digit_bounds hc).1 ((accepted_append h₁ hc).mp h)).2

/-- Fewer digits pass as well. -/
theorem Accepted.of_append_one (h₁ : 2 ≤ base) (hq : ∀ x ∈ q ++ [c], validIn base x = true)
    (h : Accepted neg base (q ++ [c])) : Accepted neg base q := by
  have hc := hq c (by simp)
  have hdigit := (digit_bounds hc).1
  have hle := (accepted_append h₁ hc).mp h
  have hval := valueOf_nonneg h₁ fun x hx => hq x (List.mem_append_left _ hx)
  have hsplit := Int.mul_ediv_add_emod (valueOf base q) base
  have hquot : 0 ≤ valueOf base q / base := Int.ediv_nonneg hval (by omega)
  have hone : 1 * (valueOf base q / base) ≤ base * (valueOf base q / base) :=
    Int.mul_le_mul_of_nonneg_right (by omega) hquot
  unfold Accepted
  omega

theorem Accepted.of_append (h₁ : 2 ≤ base) (hq : ∀ x ∈ p ++ q, validIn base x = true)
    (h : Accepted neg base (p ++ q)) : Accepted neg base p := by
  induction q using List.reverseRecOn with
  | nil => rwa [List.append_nil] at h
  | append_singleton q c ih =>
    rw [← List.append_assoc] at h hq
    exact ih (fun x hx => hq x (List.mem_append_left _ hx)) (h.of_append_one h₁ hq)

/-! ## The first digit that is rejected -/

/-- Behind the digits `q`, which pass, a digit is rejected, and `post` follows. -/
structure RejectedBehind (neg : Bool) (base : Int) (q : Str) (c : UInt8) (t post : Str) : Prop where
  split : t = q ++ c :: post
  digits : ∀ x ∈ q ++ [c], validIn base x = true
  accepted : Accepted neg base q
  rejected : ¬Accepted neg base (q ++ [c])

/-- `post` follows the first digit that is rejected. -/
def FirstRejected (neg : Bool) (base : Int) (t post : Str) : Prop :=
  ∃ q c, RejectedBehind neg base q c t post

/-- One of two beginnings of a string is a beginning of the other. -/
theorem RejectedBehind.length_le (h₁ : 2 ≤ base) {q' : Str} {c' : UInt8} (h : RejectedBehind neg base q c t post)
    (h' : RejectedBehind neg base q' c' t post') : q'.length ≤ q.length := by
  by_contra hlt
  have hpre : q ++ [c] <+: t := ⟨post, by rw [h.split, List.append_assoc]; rfl⟩
  have hpre' : q' <+: t := ⟨c' :: post', h'.split.symm⟩
  obtain ⟨r, hr⟩ := List.prefix_of_prefix_length_le hpre hpre' (by simp; omega)
  refine h.rejected (Accepted.of_append h₁ (q := r) ?_ (hr ▸ h'.accepted))
  rw [hr]
  exact fun x hx => h'.digits x (List.mem_append_left _ hx)

theorem FirstRejected.unique (h₁ : 2 ≤ base) (h : FirstRejected neg base t post)
    (h' : FirstRejected neg base t post') : post = post' := by
  obtain ⟨q, c, hq⟩ := h
  obtain ⟨q', c', hq'⟩ := h'
  have hlen := Nat.le_antisymm (hq'.length_le h₁ hq) (hq.length_le h₁ hq')
  have hsplit := List.append_inj (hq.split.symm.trans hq'.split) hlen
  exact (List.cons.inj hsplit.2).2

/-- Digits are followed by no further digit in one way only. -/
theorem takeWhile_digits (hds : ∀ x ∈ ds, validIn base x = true)
    (hrest : validIn base (rest.getD 0 0) = false) :
    (ds ++ rest).takeWhile (validIn base) = ds ∧ (ds ++ rest).dropWhile (validIn base) = rest := by
  have hdrop : rest.dropWhile (validIn base) = rest := dropWhile_of_head hrest
  have htake : rest.takeWhile (validIn base) = [] := by
    have hsplit : rest.takeWhile (validIn base) ++ rest.dropWhile (validIn base) = [] ++ rest :=
      List.takeWhile_append_dropWhile
    rw [hdrop] at hsplit
    exact List.append_cancel_right hsplit
  rw [List.takeWhile_append_of_pos hds, List.dropWhile_append_of_pos hds, htake, hdrop, List.append_nil]
  exact ⟨rfl, rfl⟩

/-- Then the digits as a whole are not accepted. -/
theorem FirstRejected.not_accepted (h₁ : 2 ≤ base) (hds : ∀ x ∈ ds, validIn base x = true)
    (hrest : validIn base (rest.getD 0 0) = false) (h : FirstRejected neg base (ds ++ rest) post) :
    ¬Accepted neg base ds := by
  obtain ⟨q, c, hq⟩ := h
  intro hacc
  have hlonger : ds = (q ++ [c]) ++ post.takeWhile (validIn base) := by
    rw [← (takeWhile_digits hds hrest).1, hq.split, ← List.takeWhile_append_of_pos hq.digits, List.append_assoc]
    rfl
  rw [hlonger] at hacc hds
  exact hq.rejected (hacc.of_append h₁ hds)

/-! ## The loop -/

/-- The rounds of the loop read digits that pass. -/
theorem Rounds.accepted (h₁ : 2 ≤ base) (h₂ : base ≤ 36) {ret : Int} (h : Rounds neg base ret cur ret' cur')
    (hret : ret = signed neg (valueOf base p)) (hp : ∀ x ∈ p, validIn base x = true)
    (hacc : Accepted neg base p) :
    ∃ q, cur = q ++ cur' ∧ ret' = signed neg (valueOf base (p ++ q)) ∧
      (∀ x ∈ p ++ q, validIn base x = true) ∧ Accepted neg base (p ++ q) := by
  induction h generalizing p with
  | refl =>
    refine ⟨[], rfl, ?_, ?_, ?_⟩ <;> rwa [List.append_nil]
  | @step ret ret' c cur cur' hdigit hrange _ ih =>
    subst hret
    rw [digInBase_eval h₂] at hdigit
    rw [digitVal_charVal hdigit, not_outOfRange_iff, ← accepted_append h₁ hdigit] at hrange
    rw [digitVal_charVal hdigit, addDigit_signed] at ih
    have hvalid : ∀ x ∈ p ++ [c], validIn base x = true := by
      intro x hx
      rcases List.mem_append.mp hx with hx | hx
      · exact hp x hx
      · rwa [List.mem_singleton.mp hx]
    obtain ⟨q, rfl, hret', hall, hacc'⟩ := ih rfl hvalid hrange
    rw [List.append_assoc] at hret' hall hacc'
    exact ⟨c :: q, rfl, hret', hall, hacc'⟩

/-- The digits have been used up, or the rest of them is skipped. -/
theorem digitLoop_cases (h₁ : 2 ≤ base) (h₂ : base ≤ 36) (neg : Bool) (t : Str) :
    (∃ q rest, t = q ++ rest ∧ (∀ x ∈ q, validIn base x = true) ∧ validIn base (rest.getD 0 0) = false ∧
      Accepted neg base q ∧ digitLoop neg base 0 t = some (signed neg (valueOf base q), none, rest)) ∨
    ∃ q c post, RejectedBehind neg base q c t post ∧ digitLoop neg base 0 t =
      (skipDigits base (post.length + 2) (c :: post)).map fun last =>
        (if neg then longMin else longMax, some .ERANGE, last) := by
  have hzero : (0 : Int) = signed neg (valueOf base []) := by cases neg <;> rfl
  obtain ⟨ret, cur, hrounds, hlast⟩ := exists_rounds neg base 0 t
  obtain ⟨q, hsplit, hret, hvalid, hacc⟩ := hrounds.accepted h₁ h₂ hzero (by simp) (accepted_nil h₁ neg)
  rw [List.nil_append] at hret hvalid hacc
  subst hret
  rw [hrounds.digitLoop_eq]
  cases cur with
  | nil => exact .inl ⟨q, [], hsplit, hvalid, validIn_nul base, hacc, rfl⟩
  | cons c post =>
    have hlast := hlast c post rfl
    rw [digInBase_eval h₂] at hlast
    rw [digitLoop, digInBase_eval h₂]
    cases hc : validIn base c with
    | false => exact .inl ⟨q, c :: post, hsplit, hvalid, hc, hacc, rfl⟩
    | true =>
      have hrange := hlast hc
      rw [hrange]
      rw [digitVal_charVal hc, outOfRange_iff] at hrange
      refine .inr ⟨q, c, post, ⟨hsplit, ?_, hacc, ?_⟩, ?_⟩
      · intro x hx
        rcases List.mem_append.mp hx with hx | hx
        · exact hvalid x hx
        · rwa [List.mem_singleton.mp hx]
      · rw [accepted_append h₁ hc]
        omega
      · rw [if_pos rfl, if_pos rfl, Option.map_eq_bind]
        rfl

/-- Words the digit test uses up, the last of them rejected, stand at the start of `post` and its
NUL. -/
def SkipEnds (base : Int) (post : Str) : Prop := ∃ w, SkipWords base w ∧ w <+: post ++ [0]

/-- Then, and only then, the skip ends within the string. -/
theorem skipDigits_some_iff : (∃ last, skipDigits base (post.length + 2) (c :: post) = some last) ↔
    SkipEnds base post := by
  have hfuel : (c :: post).length < post.length + 2 := by simp
  constructor
  · rintro ⟨last, h⟩
    obtain ⟨w, hw, hpre, -⟩ := (skipDigits_iff hfuel).mp h
    exact ⟨w, hw, hpre⟩
  · rintro ⟨w, hw, hpre⟩
    exact ⟨_, (skipDigits_iff hfuel).mpr ⟨w, hw, hpre, rfl⟩⟩

/-! ## The value -/

/-- A string of a sign and digits, with `rest` behind. -/
def numberString (neg : Bool) (ds rest : Str) : Str := (if neg then [45] else []) ++ (ds ++ rest)

/-- Digits up to a character that is none; they are not the `0` of a prefix `0x`. -/
structure IsNumber (base : Int) (ds rest : Str) : Prop where
  nonempty : ds ≠ []
  digits : ∀ x ∈ ds, validIn base x = true
  ends : validIn base (rest.getD 0 0) = false
  noPrefix : ¬(base = 16 ∧ ds = [48] ∧ rest.getD 0 0 = 120 ∧ validIn 36 (rest.getD 1 0) = true)

/-- `strtol` returns the number with `errno` untouched when it is in range, and else the limit
with `ERANGE`. -/
def ReturnsValue (neg : Bool) (base : Int) (ds s : Str) : Prop :=
  ∀ wantsEnd, ∃ r, strtol s wantsEnd base = some r ∧
    (InLong (signed neg (valueOf base ds)) → r.value = signed neg (valueOf base ds) ∧ r.errno = none) ∧
    (¬InLong (signed neg (valueOf base ds)) →
      r.value = (if neg then longMin else longMax) ∧ r.errno = some .ERANGE)

theorem inLong_signed_iff {n : Int} (hn : 0 ≤ n) : InLong (signed neg n) ↔ n ≤ limit neg := by
  cases neg with
  | false =>
    show -2 ^ 63 ≤ n ∧ n ≤ 2 ^ 63 - 1 ↔ n ≤ 2 ^ 63 - 1
    omega
  | true =>
    show -2 ^ 63 ≤ -n ∧ -n ≤ 2 ^ 63 - 1 ↔ n ≤ 2 ^ 63
    omega

/-- The prefix of base 8 is a digit like the others. -/
theorem numberAt_of_isNumber (neg : Bool) (h₁ : 2 ≤ base) (h₂ : base ≤ 36) (h : IsNumber base ds rest) :
    (numberAt base (ds ++ rest)).1 = base ∧
      digitLoop neg base 0 (numberAt base (ds ++ rest)).2 = digitLoop neg base 0 (ds ++ rest) := by
  have hten : orTen base = base := if_neg (by omega)
  obtain ⟨c, ds, rfl⟩ := List.exists_cons_of_ne_nil h.nonempty
  unfold numberAt
  split_ifs with hx halnum hoctal
  · obtain ⟨hzero, hx, hbase⟩ := hx
    obtain rfl : base = 16 := hbase.resolve_right (by omega)
    obtain rfl : c = 48 := hzero
    cases ds with
    | nil => exact absurd ⟨rfl, rfl, hx, halnum⟩ h.noPrefix
    | cons y ds =>
      obtain rfl : y = 120 := hx
      have := h.digits 120 (by simp)
      cases this
  · exact ⟨hten, rfl⟩
  · obtain ⟨hzero, hbase, -⟩ := hoctal
    obtain rfl : base = 8 := hbase.resolve_right (by omega)
    obtain rfl : c = 48 := hzero
    exact ⟨rfl, (digitLoop_zero (by decide) (by decide) (ds ++ rest)).symm⟩
  · exact ⟨hten, rfl⟩

/-- `strtol` runs the loop over the digits. -/
theorem strtol_numberString (h₁ : 2 ≤ base) (h₂ : base ≤ 36) (h : IsNumber base ds rest) (wantsEnd : Bool) :
    strtol (numberString neg ds rest) wantsEnd base =
      (digitLoop neg base 0 (ds ++ rest)).map fun r => ⟨r.1, if wantsEnd then some r.2.2 else none, r.2.1⟩ := by
  obtain ⟨hbase, hloop⟩ := numberAt_of_isNumber neg h₁ h₂ h
  obtain ⟨c, ds', hds⟩ := List.exists_cons_of_ne_nil h.nonempty
  have hc : validIn base c = true := h.digits c (by rw [hds]; exact List.mem_cons_self)
  have hspaces : behindSpaces (numberString neg ds rest) = numberString neg ds rest := by
    refine dropWhile_of_head ?_
    cases neg with
    | false =>
      rw [hds]
      exact not_space_of_validIn hc
    | true => rfl
  have hhead : decide ((numberString neg ds rest).getD 0 0 = 45) = neg := by
    cases neg with
    | false =>
      rw [hds]
      exact decide_eq_false (not_sign_of_validIn hc).2
    | true => rfl
  have hminus : behindMinus (numberString neg ds rest) = ds ++ rest := by
    unfold behindMinus
    cases neg with
    | false => exact if_neg (of_decide_eq_false hhead)
    | true => rfl
  have hstart := scanStart_numberAt (numberString neg ds rest) base
  rw [hspaces, hminus, hhead, hbase] at hstart
  unfold strtol
  rw [if_neg (by omega), hstart]
  show (digitLoop neg base 0 (numberAt base (ds ++ rest)).2).bind _ = _
  rw [hloop, Option.map_eq_bind]
  rfl

/-- **The value.** For every base, sign and digits: the value is returned exactly when the number
passes the range test, or is out of range and what follows the first digit that is rejected can
be skipped within the string. -/
theorem strtol_value_iff (h₁ : 2 ≤ base) (h₂ : base ≤ 36) (h : IsNumber base ds rest) (neg : Bool) :
    ReturnsValue neg base ds (numberString neg ds rest) ↔ Accepted neg base ds ∨
      limit neg < valueOf base ds ∧ ∀ post, FirstRejected neg base (ds ++ rest) post → SkipEnds base post := by
  have hval := valueOf_nonneg h₁ h.digits
  have hlong : InLong (signed neg (valueOf base ds)) ↔ _ := inLong_signed_iff hval
  unfold ReturnsValue
  simp only [strtol_numberString h₁ h₂ h, hlong]
  rcases digitLoop_cases h₁ h₂ neg (ds ++ rest) with ⟨q, r, hsplit, hq, hr, hacc, hret⟩ |
    ⟨q, c, post, hrej, hret⟩
  · -- all digits are read
    obtain rfl : ds = q := by
      rw [← (takeWhile_digits h.digits h.ends).1, hsplit, (takeWhile_digits hq hr).1]
    refine iff_of_true (fun wantsEnd => ?_) (.inl hacc)
    rw [hret]
    exact ⟨_, rfl, fun _ => ⟨rfl, rfl⟩, fun hlt => absurd (hacc.le_limit h₁ h.digits) hlt⟩
  · have hfirst : FirstRejected neg base (ds ++ rest) post := ⟨q, c, hrej⟩
    have hnot := hfirst.not_accepted h₁ h.digits h.ends
    rw [hret]
    constructor
    · intro hall
      obtain ⟨r, hr, hin, -⟩ := hall false
      obtain ⟨_, hskip, hr⟩ := Option.map_eq_some_iff.mp hr
      obtain ⟨last, hlast, rfl⟩ := Option.map_eq_some_iff.mp hskip
      subst hr
      refine .inr ⟨?_, fun post' h' => ?_⟩
      · -- in range, `errno` would be untouched
        by_contra hle
        have := (hin (by omega)).2
        cases this
      · rw [← hfirst.unique h₁ h']
        exact skipDigits_some_iff.mp ⟨last, hlast⟩
    · rintro (hacc | ⟨hlt, hskip⟩) wantsEnd
      · exact absurd hacc hnot
      · obtain ⟨last, hlast⟩ := (skipDigits_some_iff (c := c)).mpr (hskip post hfirst)
        rw [hlast]
        exact ⟨_, rfl, fun hle => absurd hle (by omega), fun _ => ⟨rfl, rfl⟩⟩

theorem strtol_value_iff_fortyTwo : ReturnsValue true 10 [52, 50] [45, 52, 50] :=
  (strtol_value_iff (by decide) (by decide) ⟨by decide, List.all_eq_true.mp (by decide), by decide, by decide⟩ true).mpr
    (.inl (show Accepted true 10 [52, 50] by unfold Accepted; decide))

/-- `LONG_MAX` itself is returned with `ERANGE`. -/
theorem not_returnsValue_longMax : ¬∀ (base : Int) (neg : Bool) (ds rest : Str), 2 ≤ base → base ≤ 36 →
    IsNumber base ds rest → ReturnsValue neg base ds (numberString neg ds rest) := by
  intro h
  let ds : Str := [57, 50, 50, 51, 51, 55, 50, 48, 51, 54, 56, 53, 52, 55, 55, 53, 56, 48, 55]
  have hval : signed false (valueOf 10 ds) = longMax := by decide
  have hret : strtol ds false 10 = some ⟨longMax, none, some .ERANGE⟩ := rfl
  obtain ⟨r, hr, hin, -⟩ := h 10 false ds [] (by decide) (by decide)
    ⟨by decide, List.all_eq_true.mp (by decide), by decide, by decide⟩ false
  rw [show numberString false ds [] = ds from rfl, hret] at hr
  rw [hval] at hin
  obtain rfl := Option.some.inj hr
  have := (hin ⟨by decide, by decide⟩).2
  cases this

end KoalemOS.Libc
