import KoalemOS.Libc.Subject

/-!
# The loop over the digits

The loop of `strtol` ends behind the digits unless the number is out of range. Then the
pointer moves over words that the digit test uses up (`SkipWords`), and it depends on the
digits that are left whether it ends behind them (`digitLoop_iff`).
-/

namespace KoalemOS.Libc

/-! ## Characters -/

theorem isspace_charVal (c : UInt8) : isspace (charVal c) = isSpaceChar c := by
  have hc := c.toNat_lt
  unfold isspace isSpaceChar charVal
  grind

theorem skipSpaces_eq (s : Str) : skipSpaces s = behindSpaces s := by
  unfold behindSpaces
  induction s with
  | nil => rfl
  | cons c s ih => rw [skipSpaces, isspace_charVal, List.dropWhile_cons, ih]

/-- The value of a valid digit. -/
def digit (c : UInt8) : Int := (digitOf c).getD 0

/-- `DIG_IN_BASE` is the grammar's test. -/
theorem digInBase_eval {base : Int} (hb : base ≤ 36) (c : UInt8) :
    (digInBase base).eval (charVal c) = validIn base c := by
  have hc := c.toNat_lt
  unfold digInBase upperInBase validIn digitOf charVal isdigit
  grind [Macro.eval]

theorem isalnum_charVal (c : UInt8) : isalnum (charVal c) = validIn 36 c := by
  have hc := c.toNat_lt
  unfold isalnum validIn digitOf charVal
  grind

theorem digitVal_charVal {base : Int} {c : UInt8} (h : validIn base c = true) :
    digitVal (charVal c) = digit c := by
  have hc := c.toNat_lt
  unfold digitVal digit charVal isdigit
  unfold validIn at h
  unfold digitOf at h ⊢
  grind

/-! ## The macro on a moving pointer -/

/-- The macro comes to a result and has used the characters of `w` one after the other. -/
inductive Macro.Uses : Macro → Bool → Str → Prop where
  | done (b : Bool) : Macro.Uses (.done b) b []
  | use {next : Int → Macro} {b : Bool} {c : UInt8} {w : Str} :
      Macro.Uses (next (charVal c)) b w → Macro.Uses (.use next) b (c :: w)

/-- A pointer the macro has moved `w.length` times has used the characters behind it, the NUL
included. -/
theorem Macro.evalNext_iff (m : Macro) (p : Str) (b : Bool) (k : Str) :
    m.evalNext p = some (b, k) ↔
      ∃ w, m.Uses b w ∧ w <+: (p ++ [0]).tail ∧ k = p.drop w.length := by
  induction m generalizing p with
  | done b' =>
    constructor
    · intro h
      obtain ⟨rfl, rfl⟩ : b' = b ∧ p = k := by simpa [evalNext] using h
      exact ⟨[], .done b', List.nil_prefix, rfl⟩
    · rintro ⟨w, hw, -, rfl⟩
      cases hw
      rfl
  | use next ih =>
    cases p with
    | nil =>
      constructor
      · intro h
        simp [evalNext, advance] at h
      · rintro ⟨w, hw, hpre, -⟩
        cases hw
        simp at hpre
    | cons x cur =>
      have hadv : advance (x :: cur) 1 = some cur := by simp [advance]
      obtain ⟨c, rest, hc⟩ : ∃ c rest, cur ++ [0] = c :: rest := List.exists_cons_of_ne_nil (by simp)
      have hpeek : peek cur = charVal c := by
        unfold peek
        cases cur with
        | nil => rw [← (List.cons.inj hc).1]; rfl
        | cons d cur => rw [(List.cons.inj hc).1]; rfl
      rw [evalNext, hadv, Option.bind_some, hpeek, ih]
      constructor
      · rintro ⟨w, hw, hpre, rfl⟩
        refine ⟨c :: w, .use hw, ?_, rfl⟩
        rw [List.cons_append, List.tail_cons, hc]
        rw [hc, List.tail_cons] at hpre
        exact List.cons_prefix_cons.mpr ⟨rfl, hpre⟩
      · rintro ⟨w, hw, hpre, rfl⟩
        obtain - | @⟨_, _, c', w, hw⟩ := hw
        rw [List.cons_append, List.tail_cons, hc] at hpre
        obtain ⟨rfl, hpre⟩ := List.cons_prefix_cons.mp hpre
        exact ⟨w, hw, by rwa [hc], rfl⟩

/-- The digit test uses its argument. -/
theorem digInBase_uses {base : Int} {b : Bool} {w : Str} (h : (digInBase base).Uses b w) : w ≠ [] := by
  unfold digInBase at h
  split_ifs at h <;> cases h <;> exact List.cons_ne_nil _ _

/-- Words the digit test accepts, and a last one that it rejects. -/
def SkipWords (base : Int) (w : Str) : Prop :=
  ∃ (ws : List Str) (last : Str), w = ws.flatten ++ last ∧ (∀ v ∈ ws, (digInBase base).Uses true v) ∧
    (digInBase base).Uses false last

theorem drop_drop_length (p v w : Str) : (p.drop v.length).drop w.length = p.drop (v ++ w).length := by
  rw [List.drop_drop, List.length_append]

/-- The pointer moves over such words. -/
theorem skipDigits_iff {base : Int} {fuel : Nat} {p e : Str} (hfuel : p.length < fuel) :
    skipDigits base fuel p = some e ↔
      ∃ w, SkipWords base w ∧ w <+: (p ++ [0]).tail ∧ e = p.drop w.length := by
  induction fuel generalizing p with
  | zero => omega
  | succ fuel ih =>
    have hrest : ∀ v : Str, v <+: (p ++ [0]).tail →
        (p.drop v.length ++ [0]).tail = (p ++ [0]).tail.drop v.length := by
      intro v hv
      have hlen : v.length ≤ p.length := by simpa using hv.length_le
      rw [← List.drop_append_of_le_length hlen, List.tail_drop, ← List.drop_tail]
    have hless : ∀ {v : Str} {b : Bool}, (digInBase base).Uses b v → v <+: (p ++ [0]).tail →
        (p.drop v.length).length < fuel := by
      intro v b hv hpre
      have hpos := List.length_pos_iff.mpr (digInBase_uses hv)
      have hlen : v.length ≤ p.length := by simpa using hpre.length_le
      rw [List.length_drop]
      omega
    rw [skipDigits]
    constructor
    · intro h
      obtain ⟨⟨more, k⟩, htest, h⟩ := Option.bind_eq_some_iff.mp h
      obtain ⟨v, hv, hpre, rfl⟩ := (Macro.evalNext_iff _ _ _ _).mp htest
      cases more with
      | false =>
        obtain rfl : p.drop v.length = e := Option.some.inj h
        exact ⟨v, ⟨[], v, rfl, by simp, hv⟩, hpre, rfl⟩
      | true =>
        have hlt := hless hv hpre
        obtain ⟨w, ⟨ws, last, rfl, hws, hlast⟩, hw, rfl⟩ := (ih hlt).mp h
        refine ⟨v ++ (ws.flatten ++ last), ⟨v :: ws, last, by simp, by simpa using ⟨hv, hws⟩, hlast⟩,
          ?_, drop_drop_length _ _ _⟩
        rw [hrest v hpre] at hw
        obtain ⟨r, hr⟩ := hpre
        rw [← hr, List.drop_left] at hw
        rw [← hr]
        exact List.prefix_append_right_inj v |>.mpr hw
    · rintro ⟨w, ⟨ws, last, rfl, hws, hlast⟩, hpre, rfl⟩
      cases ws with
      | nil =>
        have htest := (Macro.evalNext_iff _ p false _).mpr ⟨last, hlast, hpre, rfl⟩
        rw [htest]
        rfl
      | cons v ws =>
        have hv := hws v List.mem_cons_self
        rw [List.flatten_cons, List.append_assoc] at hpre
        have hvpre : v <+: (p ++ [0]).tail := (List.prefix_append _ _).trans hpre
        have htest := (Macro.evalNext_iff _ p true _).mpr ⟨v, hv, hvpre, rfl⟩
        rw [htest]
        have hlt := hless hv hvpre
        refine (ih hlt).mpr ⟨ws.flatten ++ last, ⟨ws, last, rfl, fun u hu => hws u (List.mem_cons_of_mem v hu),
          hlast⟩, ?_, ?_⟩
        case refine_2 => rw [drop_drop_length, List.flatten_cons, List.append_assoc]
        rw [hrest v hvpre]
        obtain ⟨r, hr⟩ := hvpre
        rw [← hr] at hpre
        rw [← hr, List.drop_left]
        exact List.prefix_append_right_inj v |>.mp hpre

/-- The digits at the start of `post` and the character behind them are such words. -/
def SkipsDigits (base : Int) (post : Str) : Prop :=
  SkipWords base (post.takeWhile (validIn base) ++ [(post.dropWhile (validIn base)).headD 0])

/-- Then, and only then, the pointer ends behind the digits. -/
theorem skipDigits_eq_dropWhile {base : Int} {c : UInt8} {post : Str} :
    skipDigits base (post.length + 2) (c :: post) = some (post.dropWhile (validIn base)) ↔
      SkipsDigits base post := by
  have hsplit : post.takeWhile (validIn base) ++ post.dropWhile (validIn base) = post :=
    List.takeWhile_append_dropWhile
  unfold SkipsDigits
  generalize post.takeWhile (validIn base) = ds at hsplit ⊢
  generalize post.dropWhile (validIn base) = e at hsplit ⊢
  subst hsplit
  obtain ⟨x, rest, hx⟩ : ∃ x rest, e ++ [0] = x :: rest := List.exists_cons_of_ne_nil (by simp)
  have hhead : e.headD 0 = x := by
    cases e with
    | nil => exact (List.cons.inj hx).1
    | cons d e => exact (List.cons.inj hx).1
  rw [skipDigits_iff (by simp), List.cons_append, List.tail_cons, hhead, List.append_assoc, hx]
  constructor
  · rintro ⟨w, hw, hpre, he⟩
    -- the pointer has moved once more than there are digits
    have hlen : w.length = ds.length + 1 := by
      have hle := hpre.length_le
      have h₁ := congrArg List.length he
      have h₂ := congrArg List.length hx
      cases hw' : w.length with
      | zero =>
        rw [hw', List.drop_zero] at he
        have := congrArg List.length he
        simp at this
        omega
      | succ n =>
        simp only [hw', List.length_drop, List.length_cons, List.length_append, List.length_nil] at *
        omega
    have hds : ds ++ [x] <+: ds ++ x :: rest := by simp
    rwa [← List.prefix_of_prefix_length_le hpre hds (by simp [hlen]) |>.eq_of_length (by simp [hlen])]
  · intro hw
    refine ⟨_, hw, by simp, ?_⟩
    simp

/-! ## The loop over the digits -/

/-- The number a row of digits writes. -/
def valueOf (base : Int) (q : Str) : Int := q.foldl (fun n c => n * base + digit c) 0

/-- The number with its sign. -/
def signed (neg : Bool) (n : Int) : Int := if neg then -n else n

theorem valueOf_append (base : Int) (q : Str) (c : UInt8) :
    valueOf base (q ++ [c]) = valueOf base q * base + digit c := by
  unfold valueOf
  rw [List.foldl_append]
  rfl

theorem addDigit_signed (neg : Bool) (base : Int) (q : Str) (c : UInt8) :
    addDigit neg base (signed neg (valueOf base q)) (digit c) =
      signed neg (valueOf base (q ++ [c])) := by
  rw [valueOf_append]
  cases neg with
  | false => rfl
  | true =>
    show -valueOf base q * base - digit c = -(valueOf base q * base + digit c)
    rw [Int.neg_mul, Int.neg_add, Int.sub_eq_add_neg]

/-- If the range test fails first at digit `c`, behind the digits `p` and `q`, then the digits
that are skipped are `SkipsDigits`. -/
def SkipsAfter (neg : Bool) (base : Int) (p cur : Str) : Prop :=
  ∀ q c post, cur = q ++ c :: post → (∀ x ∈ q, validIn base x = true) → validIn base c = true →
    (∀ q' x, q' ++ [x] <+: q →
      outOfRange neg base (signed neg (valueOf base (p ++ q'))) (digit x) = false) →
    outOfRange neg base (signed neg (valueOf base (p ++ q))) (digit c) = true → SkipsDigits base post

/-- A digit in range. -/
theorem SkipsAfter.cons_iff {neg : Bool} {base : Int} {p cur : Str} {c : UInt8}
    (hc : validIn base c = true)
    (hrange : outOfRange neg base (signed neg (valueOf base p)) (digit c) = false) :
    SkipsAfter neg base p (c :: cur) ↔ SkipsAfter neg base (p ++ [c]) cur := by
  constructor
  · intro h q d post hcur hq hd hearlier hfail
    refine h (c :: q) d post (by rw [hcur, List.cons_append]) (by simpa using ⟨hc, hq⟩) hd ?_ ?_
    · intro q' x hpre
      cases q' with
      | nil =>
        obtain ⟨rfl, -⟩ := List.cons_prefix_cons.mp hpre
        rwa [List.append_nil]
      | cons y q' =>
        obtain ⟨rfl, hpre'⟩ := List.cons_prefix_cons.mp hpre
        simpa using hearlier q' x hpre'
    · simpa using hfail
  · intro h q d post hcur hq hd hearlier hfail
    cases q with
    | nil =>
      obtain ⟨rfl, rfl⟩ := List.cons.inj hcur
      rw [List.append_nil, hrange] at hfail
      cases hfail
    | cons y q =>
      rw [List.cons_append] at hcur
      obtain ⟨rfl, rfl⟩ := List.cons.inj hcur
      refine h q d post rfl (fun x hx => hq x (List.mem_cons_of_mem _ hx)) hd ?_ (by simpa using hfail)
      intro q' x hpre
      have := hearlier (c :: q') x (List.cons_prefix_cons.mpr ⟨rfl, hpre⟩)
      simpa using this

/-- The loop ends behind the digits. -/
def LoopEnds (neg : Bool) (base ret : Int) (cur e : Str) : Prop :=
  ∃ value errno, digitLoop neg base ret cur = some (value, errno, e)

theorem loopEnds_unique {neg : Bool} {base ret : Int} {cur e e' : Str}
    (h : LoopEnds neg base ret cur e) (h' : LoopEnds neg base ret cur e') : e = e' := by
  obtain ⟨v, err, h⟩ := h
  obtain ⟨v', err', h'⟩ := h'
  rw [h] at h'
  exact (Prod.mk.inj (Prod.mk.inj (Option.some.inj h')).2).2

theorem digitLoop_iff {neg : Bool} {base : Int} (hb : base ≤ 36) (p cur : Str) :
    LoopEnds neg base (signed neg (valueOf base p)) cur (cur.dropWhile (validIn base)) ↔
      SkipsAfter neg base p cur := by
  induction cur generalizing p with
  | nil =>
    refine iff_of_true ⟨_, _, rfl⟩ ?_
    intro q c post hcur
    simp at hcur
  | cons c cur ih =>
    unfold LoopEnds
    rw [digitLoop, digInBase_eval hb, List.dropWhile_cons]
    cases hc : validIn base c with
    | false =>
      refine iff_of_true ⟨_, _, rfl⟩ ?_
      intro q d post hcur hq hd
      cases q with
      | nil =>
        obtain ⟨rfl, -⟩ := List.cons.inj hcur
        rw [hc] at hd
        cases hd
      | cons y q =>
        obtain ⟨rfl, -⟩ := List.cons.inj hcur
        rw [hq c List.mem_cons_self] at hc
        cases hc
    | true =>
      rw [digitVal_charVal hc, addDigit_signed]
      cases hrange : outOfRange neg base (signed neg (valueOf base p)) (digit c) with
      | false => exact (ih (p ++ [c])).trans (SkipsAfter.cons_iff hc hrange).symm
      | true =>
        have hskip := @skipDigits_eq_dropWhile base c cur
        constructor
        · rintro ⟨value, errno, h⟩ q d post hcur hq hd hearlier -
          obtain ⟨last, hlast, h⟩ := Option.bind_eq_some_iff.mp h
          have hlast' : last = cur.dropWhile (validIn base) :=
            (Prod.mk.inj (Prod.mk.inj (Option.some.inj h)).2).2
          cases q with
          | nil =>
            obtain ⟨rfl, rfl⟩ := List.cons.inj hcur
            exact hskip.mp (hlast'.symm ▸ hlast)
          | cons y q =>
            obtain ⟨rfl, -⟩ := List.cons.inj hcur
            have := hearlier [] c (by simp)
            rw [List.append_nil, hrange] at this
            cases this
        · intro h
          have hdigits := h [] c cur rfl (by simp) hc (by simp) (by rwa [List.append_nil])
          rw [if_pos rfl, if_pos rfl, hskip.mpr hdigits]
          exact ⟨_, _, rfl⟩

theorem digitLoop_start_iff {neg : Bool} {base : Int} (hb : base ≤ 36) (cur : Str) :
    LoopEnds neg base 0 cur (cur.dropWhile (validIn base)) ↔ SkipsAfter neg base [] cur := by
  have hzero : signed neg (valueOf base []) = 0 := by cases neg <;> rfl
  rw [← digitLoop_iff hb, hzero]

/-- Without a digit the loop ends at once. -/
theorem digitLoop_stop {neg : Bool} {base ret : Int} (hb : base ≤ 36) {cur : Str}
    (h : cur.dropWhile (validIn base) = cur) : LoopEnds neg base ret cur cur := by
  cases cur with
  | nil => exact ⟨_, _, rfl⟩
  | cons c cur =>
    have hc : validIn base c = false := by
      by_contra hc
      rw [List.dropWhile_cons, if_pos (by simpa using hc)] at h
      have hle := (List.dropWhile_sublist (validIn base) (l := cur)).length_le
      rw [h, List.length_cons] at hle
      omega
    refine ⟨ret, none, ?_⟩
    rw [digitLoop, digInBase_eval hb, hc]
    rfl

/-- A leading zero changes nothing. -/
theorem digitLoop_zero {neg : Bool} {base : Int} (h₁ : 2 ≤ base) (h₂ : base ≤ 36) (cur : Str) :
    digitLoop neg base 0 (48 :: cur) = digitLoop neg base 0 cur := by
  have hval : digitVal (charVal 48) = 0 := by decide
  have hrange : outOfRange neg base 0 0 = false := by
    have h₃ : longMin.tdiv base ≤ 0 := by
      rw [show longMin = -(2 ^ 63) from rfl, Int.neg_tdiv]
      have := Int.tdiv_nonneg (a := 2 ^ 63) (b := base) (by decide) (by omega)
      omega
    have h₄ : 0 ≤ longMax.tdiv base := Int.tdiv_nonneg (by decide) (by omega)
    cases neg <;> simp only [outOfRange, Bool.false_eq_true, if_true, if_false, decide_eq_false_iff_not] <;>
      omega
  have hadd : addDigit neg base 0 0 = 0 := by cases neg <;> simp [addDigit]
  rw [digitLoop, digInBase_eval h₂, validIn_zero (by omega), if_pos rfl, hval, hrange, hadd]
  rfl

end KoalemOS.Libc
