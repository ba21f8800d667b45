import KoalemOS.Libc.StrtolValue
import Mathlib.Algebra.Group.Nat.Even

/-!
# What `strtol` reads

The only loop of `strtol` that can step over the NUL is the one that skips the digits of a
number out of range: it moves the pointer with every use of the macro's argument. For every
string and base, `strtol` stays in the string exactly when this skip does (`strtol_stays_iff`).
For a base up to 10 it takes the digits in pairs, and their number has to be even
(`skipEnds_iff_even`).
-/

namespace KoalemOS.Libc

variable {base : Int} {cur post s : Str} {c d : UInt8}

/-! ## The pointer -/

/-- The pointer behind what the loop reads is a pointer into the string. -/
theorem digitLoop_suffix (h₁ : 2 ≤ base) (h₂ : base ≤ 36) {neg : Bool} {t : Str} {value : Int}
    {errno : Option Errno} (h : digitLoop neg base 0 t = some (value, errno, cur)) : cur <:+ t := by
  rcases digitLoop_cases h₁ h₂ neg t with ⟨q, rest, hsplit, -, -, -, hret⟩ | ⟨q, c, post, hrej, hret⟩
  · rw [hret] at h
    obtain rfl : rest = cur := congrArg (fun r => r.2.2) (Option.some.inj h)
    exact ⟨q, hsplit.symm⟩
  · rw [hret] at h
    obtain ⟨last, hlast, heq⟩ := Option.map_eq_some_iff.mp h
    obtain rfl : last = cur := congrArg (fun r => r.2.2) heq
    obtain ⟨w, -, -, rfl⟩ := (skipDigits_iff (by simp)).mp hlast
    exact (List.drop_suffix w.length _).trans ⟨q, hrej.split.symm⟩

theorem behindMinus_suffix (t : Str) : behindMinus t <:+ t := by
  unfold behindMinus
  split_ifs
  · exact List.tail_suffix t
  · exact List.suffix_refl t

theorem numberAt_suffix (base : Int) (t : Str) : (numberAt base t).2 <:+ t := by
  unfold numberAt
  split_ifs
  · exact List.drop_suffix 2 t
  · exact List.suffix_refl t
  · exact List.drop_suffix 1 t
  · exact List.suffix_refl t

/-- The digits stand in the string. -/
theorem digits_suffix (s : Str) (base : Int) : (numberAt base (behindMinus (behindSpaces s))).2 <:+ s :=
  (numberAt_suffix base _).trans ((behindMinus_suffix _).trans (List.dropWhile_suffix _))

/-! ## `strtol` -/

/-- `strtol` returns, has read nothing behind the NUL, and stores a pointer into the string. -/
def StaysInString (s : Str) (base : Int) : Prop :=
  ∀ wantsEnd, ∃ r, strtol s wantsEnd base = some r ∧ ∀ cur, r.strEnd = some cur → cur <:+ s

/-- **Reads.** For every string and base, `strtol` stays in the string exactly when the base is
not accepted, or there is no first digit that is rejected, or what follows it can be skipped
within the string. -/
theorem strtol_stays_iff (s : Str) (base : Int) :
    StaysInString s base ↔ (ValidBase base → ∀ post,
      FirstRejected ((behindSpaces s).getD 0 0 = 45) (numberAt base (behindMinus (behindSpaces s))).1
        (numberAt base (behindMinus (behindSpaces s))).2 post →
      SkipEnds (numberAt base (behindMinus (behindSpaces s))).1 post) := by
  by_cases hb : ValidBase base
  · obtain ⟨h₁, h₂⟩ := numberAt_base hb (behindMinus (behindSpaces s))
    have hsuffix := digits_suffix s base
    have hstrtol : ∀ wantsEnd, strtol s wantsEnd base =
        (digitLoop ((behindSpaces s).getD 0 0 = 45) (numberAt base (behindMinus (behindSpaces s))).1 0
          (numberAt base (behindMinus (behindSpaces s))).2).map fun r =>
            ⟨r.1, if wantsEnd then some r.2.2 else none, r.2.1⟩ := by
      intro wantsEnd
      rw [strtol, if_neg (validBase_iff.mpr hb), scanStart_numberAt, Option.map_eq_bind]
      rfl
    unfold StaysInString
    simp only [hstrtol]
    generalize numberAt base (behindMinus (behindSpaces s)) = start at h₁ h₂ hsuffix ⊢
    generalize decide ((behindSpaces s).getD 0 0 = 45) = neg
    -- a pointer the loop returns is in the string
    have hstays : (∀ wantsEnd : Bool, ∃ r, ((digitLoop neg start.1 0 start.2).map fun r =>
          (⟨r.1, if wantsEnd then some r.2.2 else none, r.2.1⟩ : Result)) = some r ∧
          ∀ cur, r.strEnd = some cur → cur <:+ s) ↔ ∃ r, digitLoop neg start.1 0 start.2 = some r := by
      constructor
      · intro h
        obtain ⟨_, hr, -⟩ := h true
        obtain ⟨r, hr, -⟩ := Option.map_eq_some_iff.mp hr
        exact ⟨r, hr⟩
      · rintro ⟨⟨value, errno, last⟩, hr⟩ wantsEnd
        rw [hr]
        refine ⟨_, rfl, fun cur hcur => ?_⟩
        cases wantsEnd with
        | false => cases hcur
        | true =>
          obtain rfl : last = cur := Option.some.inj hcur
          exact (digitLoop_suffix h₁ h₂ hr).trans hsuffix
    rw [hstays]
    rcases digitLoop_cases h₁ h₂ neg start.2 with ⟨q, rest, hsplit, hq, hrest, hacc, hret⟩ |
      ⟨q, c, post, hrej, hret⟩
    · refine iff_of_true ⟨_, hret⟩ fun _ post hpost => ?_
      rw [hsplit] at hpost
      exact absurd hacc (hpost.not_accepted h₁ hq hrest)
    · have hfirst : FirstRejected neg start.1 start.2 post := ⟨q, c, hrej⟩
      rw [hret]
      constructor
      · rintro ⟨r, hr⟩ - post' hpost'
        obtain ⟨last, hlast, -⟩ := Option.map_eq_some_iff.mp hr
        rw [← hfirst.unique h₁ hpost']
        exact skipDigits_some_iff.mp ⟨last, hlast⟩
      · intro h
        obtain ⟨last, hlast⟩ := (skipDigits_some_iff (c := c)).mpr (h hb post hfirst)
        exact ⟨_, by rw [hlast]; rfl⟩
  · -- `EINVAL`
    refine iff_of_true (fun wantsEnd => ?_) fun hc => absurd hc hb
    rw [strtol, if_pos (by rwa [← validBase_iff, not_not] at hb)]
    exact ⟨_, rfl, fun cur hcur => by cases hcur⟩

/-- Of 20 digits the last but one is rejected, and the skip over the last steps over the NUL. -/
theorem not_staysInString_odd : ¬∀ (s : Str) (base : Int), 0 ∉ s → StaysInString s base := by
  intro h
  have hret : strtol [57, 50, 50, 51, 51, 55, 50, 48, 51, 54, 56, 53, 52, 55, 55, 53, 56, 48, 55, 48] false 10 =
    none := rfl
  obtain ⟨r, hr, -⟩ :=
    h [57, 50, 50, 51, 51, 55, 50, 48, 51, 54, 56, 53, 52, 55, 55, 53, 56, 48, 55, 48] 10 (by decide) false
  rw [hret] at hr
  cases hr

/-! ## Bases up to 10 -/

/-- In a base up to 10 the digit test uses two digits. -/
theorem digInBase_uses_iff (hb : base ≤ 10) (hc : validIn base c = true) {b : Bool} {w : Str} :
    (digInBase base).Uses b (c :: w) ↔ ∃ d, w = [d] ∧ b = decide (charVal d < 48 + base) := by
  have hge : charVal c ≥ 48 := by
    have := c.toNat_lt
    unfold validIn digitOf at hc
    unfold charVal
    grind
  rw [digInBase, if_neg (by omega)]
  constructor
  · intro h
    obtain - | @⟨_, _, _, _, h⟩ := h
    change (if charVal c ≥ 48 then _ else _ : Macro).Uses b w at h
    rw [if_pos hge] at h
    obtain - | @⟨_, _, d, _, h⟩ := h
    cases h
    exact ⟨d, rfl, rfl⟩
  · rintro ⟨d, rfl, rfl⟩
    refine .use ?_
    show (if charVal c ≥ 48 then _ else _ : Macro).Uses _ [d]
    rw [if_pos hge]
    exact .use (.done _)

theorem charVal_lt_of_validIn (hb : base ≤ 10) (hd : validIn base d = true) : charVal d < 48 + base := by
  have := d.toNat_lt
  unfold validIn digitOf at hd
  unfold charVal
  grind

/-- The first word of a skip that starts at a digit. -/
theorem uses_digit (hb : base ≤ 10) (hc : validIn base c = true) {b : Bool} {w t : Str}
    (h : (digInBase base).Uses b w) (hpre : w <+: c :: d :: t) : w = [c, d] ∧ b = decide (charVal d < 48 + base) := by
  obtain ⟨x, w, rfl⟩ := List.exists_cons_of_ne_nil (digInBase_uses h)
  obtain ⟨rfl, htail⟩ := List.cons_prefix_cons.mp hpre
  obtain ⟨y, rfl, rfl⟩ := (digInBase_uses_iff hb hc).mp h
  have hy : y = d := (List.cons_prefix_cons.mp htail).1
  rw [hy]
  exact ⟨rfl, rfl⟩

theorem skipEnds_pair (hb : base ≤ 10) (hc : validIn base c = true) (hd : validIn base d = true) :
    SkipEnds base (c :: d :: post) ↔ SkipEnds base post := by
  have hlt : decide (charVal d < 48 + base) = true := decide_eq_true (charVal_lt_of_validIn hb hd)
  constructor
  · rintro ⟨w, ⟨ws, last, rfl, hws, hlast⟩, hpre⟩
    cases ws with
    | nil =>
      obtain ⟨-, heq⟩ := uses_digit hb hc hlast hpre
      rw [hlt] at heq
      cases heq
    | cons v ws =>
      rw [List.flatten_cons, List.append_assoc] at hpre
      obtain ⟨rfl, -⟩ := uses_digit hb hc (hws v List.mem_cons_self) ((List.prefix_append _ _).trans hpre)
      have hrest := (List.cons_prefix_cons.mp (List.cons_prefix_cons.mp hpre).2).2
      exact ⟨_, ⟨ws, last, rfl, fun u hu => hws u (List.mem_cons_of_mem _ hu), hlast⟩, hrest⟩
  · rintro ⟨w, ⟨ws, last, rfl, hws, hlast⟩, hpre⟩
    refine ⟨[c, d] ++ (ws.flatten ++ last), ⟨[c, d] :: ws, last, by simp, ?_, hlast⟩, ?_⟩
    · intro v hv
      rcases List.mem_cons.mp hv with rfl | hv
      · exact (digInBase_uses_iff hb hc).mpr ⟨d, rfl, hlt.symm⟩
      · exact hws v hv
    · exact List.cons_prefix_cons.mpr ⟨rfl, List.cons_prefix_cons.mpr ⟨rfl, hpre⟩⟩

/-- A single digit is taken together with the NUL, which is below every digit: the skip goes on
behind it. -/
theorem not_skipEnds_single (h₁ : 2 ≤ base) (hb : base ≤ 10) (hc : validIn base c = true) : ¬SkipEnds base [c] := by
  have hnul : decide (charVal 0 < 48 + base) = true := decide_eq_true (by rw [show charVal 0 = 0 from rfl]; omega)
  rintro ⟨w, ⟨ws, last, rfl, hws, hlast⟩, hpre⟩
  cases ws with
  | nil =>
    obtain ⟨-, heq⟩ := uses_digit hb hc hlast hpre
    rw [hnul] at heq
    cases heq
  | cons v ws =>
    rw [List.flatten_cons, List.append_assoc] at hpre
    obtain ⟨rfl, -⟩ := uses_digit hb hc (hws v List.mem_cons_self) ((List.prefix_append _ _).trans hpre)
    have hrest := List.prefix_nil.mp (List.cons_prefix_cons.mp (List.cons_prefix_cons.mp hpre).2).2
    exact digInBase_uses hlast (List.append_eq_nil_iff.mp (List.append_eq_nil_iff.mp hrest).2).2

theorem skipEnds_nil (hb : base ≤ 10) : SkipEnds base [] := by
  refine ⟨[0], ⟨[], [0], rfl, by simp, ?_⟩, List.prefix_refl _⟩
  rw [digInBase, if_neg (by omega)]
  exact .use (.done false)

/-- In a base up to 10, the digits before the NUL can be skipped when their number is even. -/
theorem skipEnds_iff_even (h₁ : 2 ≤ base) (hb : base ≤ 10) : ∀ {ds : Str}, (∀ x ∈ ds, validIn base x = true) →
    (SkipEnds base ds ↔ Even ds.length)
  | [], _ => iff_of_true (skipEnds_nil hb) (by decide)
  | [c], h => iff_of_false (not_skipEnds_single h₁ hb (h c (by simp))) Nat.not_even_one
  | c :: d :: ds, h => by
    have ih : SkipEnds base ds ↔ Even ds.length := skipEnds_iff_even h₁ hb fun x hx => h x (by simp [hx])
    rw [skipEnds_pair hb (h c (by simp)) (h d (by simp)), ih, List.length_cons, List.length_cons,
      Nat.even_add_one, Nat.even_add_one, not_not]

end KoalemOS.Libc
