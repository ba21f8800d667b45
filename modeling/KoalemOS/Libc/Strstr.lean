import KoalemOS.Libc.Strtol
import Mathlib.Data.List.Infix
import Mathlib.Tactic.IntervalCases

/-!
# `strstr` (`src/libc/string.c`)

`strstr` compares at a position of the string until the first difference, and goes on behind
the characters that were equal. An occurrence that starts among them is not seen: the search
finds the first occurrence exactly when it gets to its position (`strstr_iff`).
-/

namespace KoalemOS.Libc

variable {str substr cur : Str} {p q : Nat}

/-! ## The code -/

/-- `strlen` -/
def strlen : Str → Nat
  | [] => 0
  | c :: cur => if charVal c = 0 then 0 else strlen cur + 1

/-- The loop over the characters of `substr` from character `i`, with `k` to go: where it ends
and whether all were equal. -/
def matchLoop (cur substr : Str) (i : Nat) : Nat → Option (Nat × Bool)
  | 0 => some (i, true)
  | k + 1 => do
    let a ← charAt cur i
    let b ← charAt substr i
    if a ≠ b then return (i, false) else matchLoop cur substr (i + 1) k

/-- The loop of `strstr`; every round takes at least one character of the string. -/
def strstrLoop (substr : Str) : Nat → Str → Option (Option Str)
  | 0, _ => none
  | fuel + 1, cur =>
    if peek cur = 0 then return none
    else if peek cur = peek substr then do
      let (i, found) ← matchLoop cur substr 1 (strlen substr - 1)
      if found then return some cur
      else
        let next ← advance cur i
        strstrLoop substr fuel next
    else do
      let next ← advance cur 1
      strstrLoop substr fuel next

/-- `strstr`: the rest of the string from the occurrence on, or null. -/
def strstr (str substr : Str) : Option (Option Str) :=
  if strlen substr = 0 then some (some str) else strstrLoop substr (str.length + 1) str

/-! ## Characters -/

theorem charVal_inj {a b : UInt8} : charVal a = charVal b ↔ a = b := by
  rw [← UInt8.toNat_inj]
  have ha := a.toNat_lt
  have hb := b.toNat_lt
  unfold charVal
  split_ifs <;> omega

theorem charVal_eq_zero {a : UInt8} : charVal a = 0 ↔ a = 0 := charVal_inj (b := 0)

theorem strlen_eq (h : 0 ∉ cur) : strlen cur = cur.length := by
  induction cur with
  | nil => rfl
  | cons c cur ih =>
    obtain ⟨hc, hcur⟩ := List.ne_and_not_mem_of_not_mem_cons h
    rw [strlen, if_neg (by rw [charVal_eq_zero]; exact Ne.symm hc), ih hcur, List.length_cons]

theorem charAt_lt {i : Nat} (h : i < cur.length) : charAt cur i = some (charVal cur[i]) := by
  rw [charAt, List.getElem?_append_left h, List.getElem?_eq_getElem h, Option.map_some]

theorem charAt_length (cur : Str) : charAt cur cur.length = some (charVal 0) := by
  rw [charAt, List.getElem?_append_right le_rfl, Nat.sub_self]
  rfl

/-! ## Partial matches -/

/-- The number of characters at the start that two strings share. -/
def matched : Str → Str → Nat
  | a :: s, b :: t => if a = b then matched s t + 1 else 0
  | _, _ => 0

theorem matched_le (s t : Str) : matched s t ≤ s.length ∧ matched s t ≤ t.length := by
  induction s generalizing t with
  | nil => simp [matched]
  | cons a s ih =>
    cases t with
    | nil => simp [matched]
    | cons b t =>
      obtain ⟨h₁, h₂⟩ := ih t
      simp only [matched, List.length_cons]
      split_ifs <;> omega

/-- The characters up to there are equal. -/
theorem matched_get {s t : Str} {i : Nat} (hi : i < matched s t) : s[i]? = t[i]? := by
  induction s generalizing t i with
  | nil => simp [matched] at hi
  | cons a s ih =>
    cases t with
    | nil => simp [matched] at hi
    | cons b t =>
      simp only [matched] at hi
      split_ifs at hi with hab
      · cases i with
        | zero => simp [hab]
        | succ i => simpa using ih (Nat.lt_of_succ_lt_succ hi)
      · omega

/-- The characters there differ, or one of the strings has ended. -/
theorem matched_differ (s t : Str) (hs : matched s t < s.length) : s[matched s t]? ≠ t[matched s t]? := by
  induction s generalizing t with
  | nil => simp at hs
  | cons a s ih =>
    cases t with
    | nil => simp [matched]
    | cons b t =>
      simp only [matched] at hs ⊢
      split_ifs at hs ⊢ with hab
      · simpa using ih t (by simpa using hs)
      · simpa using hab

theorem matched_eq_length_iff (s t : Str) : matched s t = s.length ↔ s <+: t := by
  induction s generalizing t with
  | nil => simp [matched]
  | cons a s ih =>
    cases t with
    | nil => simp [matched]
    | cons b t =>
      simp only [matched, List.length_cons, List.cons_prefix_cons]
      split_ifs with hab
      · simp [hab, ih t]
      · simp [hab]

/-- The loop over `substr` ends at the first difference. -/
theorem matchLoop_eq (hsub : 0 ∉ substr) {i k : Nat} (hik : i + k = substr.length) (hi : i ≤ matched substr cur) :
    matchLoop cur substr i k = some (matched substr cur, decide (substr <+: cur)) := by
  obtain ⟨hle, hle'⟩ := matched_le substr cur
  induction k generalizing i with
  | zero =>
    have heq : matched substr cur = substr.length := by omega
    rw [matchLoop, decide_eq_true ((matched_eq_length_iff substr cur).mp heq), heq]
    congr 2
  | succ k ih =>
    have hilt : i < substr.length := by omega
    have hb := charAt_lt hilt
    by_cases heq : i = matched substr cur
    · -- the first difference, perhaps the end of the string
      have hno : ¬substr <+: cur := fun hpre => by
        have := (matched_eq_length_iff substr cur).mpr hpre
        omega
      have hdiff := matched_differ substr cur (by omega)
      rw [← heq, List.getElem?_eq_getElem hilt] at hdiff
      obtain ⟨a, ha, hab⟩ : ∃ a, charAt cur i = some (charVal a) ∧ a ≠ substr[i] := by
        by_cases hcur : i < cur.length
        · refine ⟨cur[i], charAt_lt hcur, fun hc => hdiff ?_⟩
          rw [List.getElem?_eq_getElem hcur, hc]
        · obtain rfl : i = cur.length := by omega
          exact ⟨0, charAt_length cur, fun hc => hsub (hc ▸ List.getElem_mem hilt)⟩
      rw [matchLoop, ha, hb]
      show (if charVal a ≠ charVal substr[i] then some (i, false) else _) = _
      rw [if_pos (by rwa [Ne, charVal_inj]), ← heq, decide_eq_false hno]
    · have hget := matched_get (s := substr) (t := cur) (i := i) (by omega)
      have hcur : i < cur.length := by omega
      rw [List.getElem?_eq_getElem hilt, List.getElem?_eq_getElem hcur, Option.some.injEq] at hget
      rw [matchLoop, charAt_lt hcur, hb]
      show (if charVal cur[i] ≠ charVal substr[i] then _ else matchLoop cur substr (i + 1) k) = _
      rw [if_neg (by rw [hget]; simp)]
      exact ih (by omega) (by omega)

/-! ## The positions of the search -/

/-- From position `p` the search gets to position `q`: as long as `substr` does not occur where
it is, it goes on behind the characters that are equal there, by one if there are none. -/
inductive Visits (str substr : Str) (p : Nat) : Nat → Prop where
  | refl : Visits str substr p p
  | step {q : Nat} : Visits str substr p q → q < str.length → ¬substr <+: str.drop q →
      Visits str substr p (q + max 1 (matched substr (str.drop q)))

theorem Visits.le (h : Visits str substr p q) : p ≤ q := by
  induction h with
  | refl => exact le_rfl
  | step _ _ _ ih => omega

/-- The search stays where `substr` occurs. -/
theorem Visits.eq_of_occurs (h : Visits str substr p q) (hp : substr <+: str.drop p) : q = p := by
  induction h with
  | refl => rfl
  | step _ _ hno ih => exact absurd (ih ▸ hp) hno

/-- A first step, and then the rest. -/
theorem Visits.head (h : Visits str substr p q) : q = p ∨ p < str.length ∧ ¬substr <+: str.drop p ∧
    Visits str substr (p + max 1 (matched substr (str.drop p))) q := by
  induction h with
  | refl => exact .inl rfl
  | @step q hq hlt hno ih =>
    rcases ih with rfl | ⟨hlt', hno', hrest⟩
    · exact .inr ⟨hlt, hno, .refl⟩
    · exact .inr ⟨hlt', hno', hrest.step hlt hno⟩

theorem Visits.trans {t : Nat} (h : Visits str substr p q) (h' : Visits str substr q t) : Visits str substr p t := by
  induction h' with
  | refl => exact h
  | step _ hlt hno ih => exact ih.step hlt hno

/-- Two positions of one search lie one behind the other. -/
theorem Visits.linear {t : Nat} (hq : Visits str substr p q) (ht : Visits str substr p t) :
    Visits str substr q t ∨ Visits str substr t q := by
  induction hq with
  | refl => exact .inl ht
  | @step q hq hlt hno ih =>
    rcases ih with h | h
    · rcases h.head with rfl | ⟨-, -, hrest⟩
      · exact .inr (Visits.refl.step hlt hno)
      · exact .inl hrest
    · exact .inr (h.step hlt hno)

/-- A round of the loop: an occurrence ends it, else it goes on behind the equal characters. -/
theorem strstrLoop_succ (hcur : 0 ∉ cur) (hsub : 0 ∉ substr) (hne : substr ≠ []) (hcne : cur ≠ []) (fuel : Nat) :
    strstrLoop substr (fuel + 1) cur =
      if substr <+: cur then some (some cur)
      else strstrLoop substr fuel (cur.drop (max 1 (matched substr cur))) := by
  obtain ⟨c, rest, rfl⟩ := List.exists_cons_of_ne_nil hcne
  obtain ⟨d, tail, rfl⟩ := List.exists_cons_of_ne_nil hne
  have hc : charVal c ≠ 0 := by
    rw [Ne, charVal_eq_zero]
    exact fun hc => hcur (hc ▸ List.mem_cons_self)
  have hpc : peek (c :: rest) = charVal c := rfl
  have hpd : peek (d :: tail) = charVal d := rfl
  have hle := (matched_le (d :: tail) (c :: rest)).2
  rw [strstrLoop, hpc, hpd, if_neg hc]
  by_cases hcd : c = d
  · subst hcd
    have hone : 1 ≤ matched (c :: tail) (c :: rest) := by
      rw [matched, if_pos rfl]
      omega
    rw [if_pos rfl, strlen_eq hsub, matchLoop_eq hsub (by simp only [List.length_cons]; omega) hone,
      max_eq_right hone]
    by_cases hocc : c :: tail <+: c :: rest
    · rw [if_pos hocc, decide_eq_true hocc]
      rfl
    · have hadv : advance (c :: rest) (matched (c :: tail) (c :: rest)) =
          some ((c :: rest).drop (matched (c :: tail) (c :: rest))) := if_pos hle
      rw [if_neg hocc, decide_eq_false hocc]
      simp [hadv]
  · have hzero : matched (d :: tail) (c :: rest) = 0 := by
      rw [matched, if_neg (Ne.symm hcd)]
    have hocc : ¬d :: tail <+: c :: rest := fun hc => hcd (List.cons_prefix_cons.mp hc).1.symm
    rw [if_neg (by rwa [charVal_inj]), if_neg hocc, hzero]
    simp [advance]

/-- The search finds the occurrence it gets to, and nothing where it gets to none. -/
theorem strstrLoop_visits (hstr : 0 ∉ str) (hsub : 0 ∉ substr) (hne : substr ≠ []) {fuel : Nat}
    (hp : p ≤ str.length) (hfuel : str.length - p < fuel) :
    (∃ q, Visits str substr p q ∧ substr <+: str.drop q ∧
        strstrLoop substr fuel (str.drop p) = some (some (str.drop q))) ∨
      (∀ q, Visits str substr p q → ¬substr <+: str.drop q) ∧
        strstrLoop substr fuel (str.drop p) = some none := by
  induction fuel generalizing p with
  | zero => omega
  | succ fuel ih =>
    rcases Nat.eq_or_lt_of_le hp with rfl | hlt
    · -- the end of the string
      refine .inr ⟨fun q hq hocc => ?_, ?_⟩
      · rw [List.drop_eq_nil_of_le hq.le, List.prefix_nil] at hocc
        exact hne hocc
      · rw [List.drop_length, strstrLoop, if_pos (show peek [] = 0 by decide)]
        rfl
    · have hcne : str.drop p ≠ [] := by
        rw [Ne, List.drop_eq_nil_iff]
        omega
      rw [strstrLoop_succ (fun hmem => hstr (List.mem_of_mem_drop hmem)) hsub hne hcne]
      by_cases hocc : substr <+: str.drop p
      · rw [if_pos hocc]
        exact .inl ⟨p, .refl, hocc, rfl⟩
      · rw [if_neg hocc, List.drop_drop]
        have hle := (matched_le substr (str.drop p)).2
        rw [List.length_drop] at hle
        rcases ih (p := p + max 1 (matched substr (str.drop p))) (by omega) (by omega) with
          ⟨q, hq, hocc', hret⟩ | ⟨hnone, hret⟩
        · exact .inl ⟨q, (Visits.refl.step hlt hocc).trans hq, hocc', hret⟩
        · refine .inr ⟨fun q hq => ?_, hret⟩
          rcases hq.head with rfl | ⟨-, -, hrest⟩
          · exact hocc
          · exact hnone q hrest

/-! ## The first occurrence -/

/-- `p` is the first position at which `substr` occurs. -/
def FirstAt (str substr : Str) (p : Nat) : Prop :=
  substr <+: str.drop p ∧ ∀ q < p, ¬substr <+: str.drop q

/-- What `strstr` is to return: the first occurrence, or null when there is none. -/
def FindsFirst (str substr : Str) : Prop :=
  (∃ p ≤ str.length, FirstAt str substr p ∧ strstr str substr = some (some (str.drop p))) ∨
    (∀ p, ¬substr <+: str.drop p) ∧ strstr str substr = some none

theorem FirstAt.le_length {p : Nat} (h : FirstAt str substr p) : p ≤ str.length := by
  by_contra hlt
  refine h.2 str.length (by omega) ?_
  have hocc := h.1
  rw [List.drop_eq_nil_of_le (by omega)] at hocc
  rwa [List.drop_length]

/-- Where there is an occurrence there is a first one. -/
theorem exists_firstAt {p : Nat} (h : substr <+: str.drop p) : ∃ q, FirstAt str substr q := by
  induction p using Nat.strong_induction_on with
  | _ p ih =>
    by_cases hfirst : ∃ q < p, substr <+: str.drop q
    · obtain ⟨q, hq, hocc⟩ := hfirst
      exact ih q hq hocc
    · exact ⟨p, h, fun q hq hocc => hfirst ⟨q, hq, hocc⟩⟩

/-- **`strstr`** ends, and it returns the first occurrence, or null when there is none, exactly
when the search gets to the position of the first occurrence. -/
theorem strstr_iff (hstr : 0 ∉ str) (hsub : 0 ∉ substr) :
    FindsFirst str substr ↔ ∀ p, FirstAt str substr p → Visits str substr 0 p := by
  by_cases hne : substr = []
  · -- the empty string occurs at the start
    subst hne
    have hfirst : FirstAt str [] 0 := ⟨List.nil_prefix, by simp⟩
    refine iff_of_true (.inl ⟨0, Nat.zero_le _, hfirst, rfl⟩) fun p hp => ?_
    obtain rfl : p = 0 := Nat.eq_zero_of_not_pos fun hpos => hp.2 0 hpos List.nil_prefix
    exact .refl
  · have hlen : strlen substr ≠ 0 := by
      rw [strlen_eq hsub]
      exact fun h => hne (List.eq_nil_of_length_eq_zero h)
    have hrun := strstrLoop_visits hstr hsub hne (Nat.zero_le str.length) (show _ < str.length + 1 by omega)
    rw [List.drop_zero] at hrun
    unfold FindsFirst strstr
    rw [if_neg hlen]
    constructor
    · rintro (⟨p, hp, hfirst, hret⟩ | ⟨hnone, -⟩) t ht
      · -- the occurrence that is returned is one the search has got to
        rcases hrun with ⟨q, hq, hocc, hret'⟩ | ⟨-, hret'⟩ <;> rw [hret] at hret'
        · have hdrop : str.drop p = str.drop q := Option.some.inj (Option.some.inj hret')
          have hqlen : q ≤ str.length := by
            by_contra hlt
            rw [List.drop_eq_nil_of_le (by omega), List.prefix_nil] at hocc
            exact hne hocc
          have hpq := congrArg List.length hdrop
          rw [List.length_drop, List.length_drop] at hpq
          obtain rfl : p = q := by omega
          obtain rfl : t = p := by
            rcases Nat.lt_trichotomy t p with hlt | heq | hlt
            · exact absurd ht.1 (hfirst.2 t hlt)
            · exact heq
            · exact absurd hfirst.1 (ht.2 p hlt)
          exact hq
        · cases hret'
      · exact absurd ht.1 (hnone t)
    · intro hvisits
      rcases hrun with ⟨q, hq, hocc, hret⟩ | ⟨hnone, hret⟩
      · obtain ⟨t, ht⟩ := exists_firstAt hocc
        have htvisit := hvisits t ht
        -- the search stays at the first occurrence
        obtain rfl : q = t := by
          rcases htvisit.linear hq with h | h
          · exact h.eq_of_occurs ht.1
          · exact (h.eq_of_occurs hocc).symm
        exact .inl ⟨q, ht.le_length, ht, hret⟩
      · refine .inr ⟨fun p hocc => ?_, hret⟩
        obtain ⟨t, ht⟩ := exists_firstAt hocc
        exact hnone t (hvisits t ht) ht.1

/-- `ab` in `aab`: the search gets to the second character. -/
theorem strstr_iff_ab : FindsFirst [97, 97, 98] [97, 98] := by
  refine (strstr_iff (by decide) (by decide)).mpr fun p hp => ?_
  have hone : Visits [97, 97, 98] [97, 98] 0 1 := Visits.refl.step (by decide) (by decide)
  have hle := hp.le_length
  simp only [List.length_cons, List.length_nil] at hle
  interval_cases p
  · exact absurd hp.1 (by decide)
  · exact hone
  · exact absurd hp.1 (by decide)
  · exact absurd hp.1 (by decide)

/-- `aab` in `aaab`: two characters are equal at the start, and the search goes on behind them,
where the occurrence has begun. -/
theorem strstr_skips : ¬FindsFirst [97, 97, 97, 98] [97, 97, 98] := by
  have hocc : [97, 97, 98] <+: ([97, 97, 97, 98] : Str).drop 1 := by decide
  have hret : strstr [97, 97, 97, 98] [97, 97, 98] = some none := by decide
  rintro (⟨p, -, -, hfound⟩ | ⟨hnone, -⟩)
  · rw [hret] at hfound
    cases hfound
  · exact hnone 1 hocc

/-! ## Strings that overlap themselves -/

/-- The characters of `substr` from `d` up to `i` repeat its first ones, and the next one does not. -/
def Overlaps (substr : Str) : Prop :=
  ∃ d i, 0 < d ∧ d < i ∧ i < substr.length ∧ (∀ j, d ≤ j → j < i → substr[j]? = substr[j - d]?) ∧
    substr[i]? ≠ substr[i - d]?

theorem le_matched {s t : Str} {i : Nat} (hi : i ≤ s.length) (h : ∀ j < i, s[j]? = t[j]?) : i ≤ matched s t := by
  by_contra hlt
  exact matched_differ s t (by omega) (h _ (by omega))

/-- A character of an occurrence. -/
theorem get_of_occurs {j : Nat} (h : substr <+: str.drop p) (hj : j < substr.length) :
    str[p + j]? = substr[j]? := by
  obtain ⟨t, ht⟩ := h
  rw [← List.getElem?_drop, ← ht, List.getElem?_append_left hj]

/-- The search gets to the first occurrence, unless `substr` overlaps itself. -/
theorem visits_of_not_overlaps (hno : ¬Overlaps substr) (hp : FirstAt str substr p) {n : Nat} (hn : p - q ≤ n)
    (hqp : q ≤ p) : Visits str substr q p := by
  induction n generalizing q with
  | zero =>
    obtain rfl : q = p := by omega
    exact .refl
  | succ n ih =>
    rcases Nat.eq_or_lt_of_le hqp with rfl | hlt
    · exact .refl
    have hocc := hp.2 q hlt
    have hlen := hp.le_length
    have hstep : Visits str substr q _ := Visits.refl.step (by omega) hocc
    by_cases hle : q + max 1 (matched substr (str.drop q)) ≤ p
    · exact hstep.trans (ih (by omega) hle)
    · -- the occurrence begins among the characters that are equal at `q`
      exfalso
      have hshort : matched substr (str.drop q) < substr.length := by
        have hne : matched substr (str.drop q) ≠ substr.length := fun heq =>
          hocc ((matched_eq_length_iff _ _).mp heq)
        have := (matched_le substr (str.drop q)).1
        omega
      refine hno ⟨p - q, matched substr (str.drop q), by omega, by omega, hshort, fun j hj hji => ?_, ?_⟩
      · rw [matched_get hji, List.getElem?_drop, show q + j = p + (j - (p - q)) by omega]
        exact get_of_occurs hp.1 (by omega)
      · have hdiff := matched_differ substr (str.drop q) hshort
        rw [List.getElem?_drop, show q + matched substr (str.drop q) =
          p + (matched substr (str.drop q) - (p - q)) by omega, get_of_occurs hp.1 (by omega)] at hdiff
        exact hdiff

/-- **The strings `strstr` finds everywhere** are those that do not overlap themselves. -/
theorem strstr_all_iff (hsub : 0 ∉ substr) :
    (∀ str, 0 ∉ str → FindsFirst str substr) ↔ ¬Overlaps substr := by
  constructor
  · rintro hall ⟨d, i, hd, hdi, hi, hrepeat, hdiff⟩
    -- the string that begins with the first `d` characters and goes on with an occurrence
    have hstr : 0 ∉ substr.take d ++ substr := fun hmem => by
      rcases List.mem_append.mp hmem with hmem | hmem
      · exact hsub (List.mem_of_mem_take hmem)
      · exact hsub hmem
    have hget : ∀ j, d ≤ j → (substr.take d ++ substr)[j]? = substr[j - d]? := fun j hj => by
      rw [List.getElem?_append_right (by rw [List.length_take]; omega), List.length_take,
        Nat.min_eq_left (by omega)]
    have hocc : substr <+: (substr.take d ++ substr).drop d := by
      rw [List.drop_append_of_le_length (by rw [List.length_take]; omega), List.drop_eq_nil_of_le
        (by rw [List.length_take]; omega), List.nil_append]
    obtain ⟨p, hp⟩ := exists_firstAt hocc
    have hle : p ≤ d := by
      by_contra hlt
      exact hp.2 d (by omega) hocc
    have hmatched : i ≤ matched substr (substr.take d ++ substr) := by
      refine le_matched (by omega) fun j hj => ?_
      by_cases hjd : j < d
      · rw [List.getElem?_append_left (by rw [List.length_take]; omega), List.getElem?_take_of_lt hjd]
      · rw [hget j (by omega), hrepeat j (by omega) hj]
    rcases ((strstr_iff hstr hsub).mp (hall _ hstr) p hp).head with rfl | ⟨-, -, hrest⟩
    · refine hdiff ?_
      have hchar := get_of_occurs hp.1 hi
      rw [Nat.zero_add, hget i (by omega)] at hchar
      exact hchar.symm
    · have := hrest.le
      rw [List.drop_zero] at this
      omega
  · exact fun hno str hstr => (strstr_iff hstr hsub).mpr fun p hp =>
      visits_of_not_overlaps hno hp (n := p) (Nat.sub_le _ _) (Nat.zero_le p)

end KoalemOS.Libc
