import KoalemOS.Libc.Memcmp
import KoalemOS.Libc.Strstr

/-!
# `strcmp` and `strncmp` (`src/libc/string.c`)

`strcmp` and `strncmp` subtract characters, which are signed, and `memcmp` subtracts unsigned
bytes. `strncmp` is `strcmp` on the truncated strings (`strncmp_eq`), and `strcmp` has the sign of
`memcmp` exactly when the first characters that differ lie in the same half of the byte values
and `memcmp` gets that far (`comparesAlike_iff`).
-/

namespace KoalemOS.Libc

variable {a b : Str} {c d : UInt8} {count : Nat}

/-! ## The code -/

/-- The loop of `strcmp` from character `i`; every round takes a character of `lhs`. -/
def strcmpLoop (lhs rhs : Str) : Nat → Nat → Option Int
  | 0, _ => none
  | fuel + 1, i => do
    let a ← charAt lhs i
    let b ← charAt rhs i
    if a = b then if a = 0 then return 0 else strcmpLoop lhs rhs fuel (i + 1)
    else return a - b

/-- `strcmp` -/
def strcmp (lhs rhs : Str) : Option Int := strcmpLoop lhs rhs (lhs.length + 1) 0

/-- The loop of `strncmp` from character `i`, with `k` to go. -/
def strncmpLoop (lhs rhs : Str) (i : Nat) : Nat → Option Int
  | 0 => some 0
  | k + 1 => do
    let a ← charAt lhs i
    let b ← charAt rhs i
    if a ≠ b then return a - b
    else if a = 0 then return 0
    else strncmpLoop lhs rhs (i + 1) k

/-- `strncmp` -/
def strncmp (lhs rhs : Str) (count : Nat) : Option Int := strncmpLoop lhs rhs 0 count

/-! ## The loops on the rests of the strings -/

/-- The characters of a string with its NUL. -/
def chr (s : Str) (i : Nat) : UInt8 := (s ++ [0]).getD i 0

@[simp] theorem chr_zero (s : Str) : chr (c :: s) 0 = c := rfl

@[simp] theorem chr_succ (s : Str) (i : Nat) : chr (c :: s) (i + 1) = chr s i := rfl

@[simp] theorem chr_nil (i : Nat) : chr [] i = 0 := by
  cases i <;> rfl

theorem charAt_succ (s : Str) (i : Nat) : charAt (c :: s) (i + 1) = charAt s i := rfl

/-- One character further is the same place in the rest. -/
theorem strcmpLoop_tail (s t : Str) (fuel i : Nat) :
    strcmpLoop (c :: s) (d :: t) fuel (i + 1) = strcmpLoop s t fuel i := by
  induction fuel generalizing i with
  | zero => rfl
  | succ fuel ih => rw [strcmpLoop, strcmpLoop, charAt_succ, charAt_succ, ih]

theorem strncmpLoop_tail (s t : Str) (k i : Nat) :
    strncmpLoop (c :: s) (d :: t) (i + 1) k = strncmpLoop s t i k := by
  induction k generalizing i with
  | zero => rfl
  | succ k ih => rw [strncmpLoop, strncmpLoop, charAt_succ, charAt_succ, ih]

/-- `strcmp` by its first characters. -/
theorem strcmp_cons (s t : Str) (hc : c ≠ 0) :
    strcmp (c :: s) (d :: t) = if c = d then strcmp s t else some (charVal c - charVal d) := by
  have hc' : charVal c ≠ 0 := fun h => hc (charVal_eq_zero.mp h)
  unfold strcmp
  rw [List.length_cons, strcmpLoop, strcmpLoop_tail]
  show (if charVal c = charVal d then if charVal c = 0 then some 0 else strcmpLoop s t (s.length + 1) 0
    else some (charVal c - charVal d)) = _
  rw [if_neg hc']
  simp only [charVal_inj]

theorem strncmp_cons (s t : Str) (hc : c ≠ 0) (k : Nat) :
    strncmp (c :: s) (d :: t) (k + 1) = if c = d then strncmp s t k else some (charVal c - charVal d) := by
  have hc' : charVal c ≠ 0 := fun h => hc (charVal_eq_zero.mp h)
  unfold strncmp
  rw [strncmpLoop, strncmpLoop_tail]
  show (if charVal c ≠ charVal d then some (charVal c - charVal d)
    else if charVal c = 0 then some 0 else strncmpLoop s t 0 k) = _
  rw [if_neg hc']
  simp only [charVal_inj, ite_not]

/-- At the end of a string. -/
theorem strcmp_nil (s : Str) : strcmp [] s = some (charVal 0 - charVal (chr s 0)) := by
  cases s with
  | nil => rfl
  | cons d s =>
    show (if charVal 0 = charVal d then some 0 else some (charVal 0 - charVal d)) = _
    by_cases h : charVal 0 = charVal d
    · rw [if_pos h, chr_zero, h, Int.sub_self]
    · rw [if_neg h, chr_zero]

theorem strcmp_cons_nil (s : Str) (hc : c ≠ 0) : strcmp (c :: s) [] = some (charVal c - charVal 0) := by
  show (if charVal c = charVal 0 then _ else some (charVal c - charVal 0)) = _
  rw [if_neg (by rwa [charVal_inj])]

theorem strncmp_nil (s : Str) (k : Nat) : strncmp [] s (k + 1) = some (charVal 0 - charVal (chr s 0)) := by
  cases s with
  | nil => rfl
  | cons d s =>
    show (if charVal 0 ≠ charVal d then some (charVal 0 - charVal d) else some 0) = _
    by_cases h : charVal 0 = charVal d
    · rw [if_neg (not_not.mpr h), chr_zero, h, Int.sub_self]
    · rw [if_pos h, chr_zero]

theorem strncmp_cons_nil (s : Str) (hc : c ≠ 0) (k : Nat) :
    strncmp (c :: s) [] (k + 1) = some (charVal c - charVal 0) := by
  show (if charVal c ≠ charVal 0 then some (charVal c - charVal 0) else _) = _
  rw [if_pos (by rwa [Ne, charVal_inj])]

/-- `strncmp` is `strcmp` on the truncated strings. -/
theorem strncmp_eq (ha : 0 ∉ a) (hb : 0 ∉ b) (count : Nat) :
    strncmp a b count = strcmp (a.take count) (b.take count) := by
  induction a generalizing b count with
  | nil =>
    cases count with
    | zero => rfl
    | succ k =>
      rw [strncmp_nil, List.take_nil, strcmp_nil]
      cases b <;> rfl
  | cons c s ih =>
    obtain ⟨hc, hs⟩ := List.ne_and_not_mem_of_not_mem_cons ha
    cases count with
    | zero => rfl
    | succ k =>
      cases b with
      | nil => rw [strncmp_cons_nil s hc.symm, List.take_nil, List.take_succ_cons, strcmp_cons_nil _ hc.symm]
      | cons d t =>
        obtain ⟨-, ht⟩ := List.ne_and_not_mem_of_not_mem_cons hb
        rw [strncmp_cons s t hc.symm, List.take_succ_cons, List.take_succ_cons, strcmp_cons _ _ hc.symm,
          ih hs ht]

/-! ## The first characters that differ -/

/-- A string as a range of memory. -/
def stringBuffer (s : Str) : Buffer := ⟨chr s, s.length + 1⟩

theorem FirstDifference.cons {i : Nat} (h : FirstDifference (stringBuffer a) (stringBuffer b) i) :
    FirstDifference (stringBuffer (c :: a)) (stringBuffer (c :: b)) (i + 1) := by
  refine ⟨h.differ, fun j hj => ?_⟩
  cases j with
  | zero => rfl
  | succ j => exact h.agree j (Nat.lt_of_succ_lt_succ hj)

theorem firstDifference_zero (h : chr a 0 ≠ chr b 0) : FirstDifference (stringBuffer a) (stringBuffer b) 0 :=
  ⟨h, fun i hi => absurd hi (Nat.not_lt_zero i)⟩

/-- `strcmp` returns the difference of the first characters that differ. -/
theorem strcmp_eq (ha : 0 ∉ a) (hb : 0 ∉ b) : (a = b ∧ strcmp a b = some 0) ∨
    ∃ i ≤ min a.length b.length, FirstDifference (stringBuffer a) (stringBuffer b) i ∧
      strcmp a b = some (charVal (chr a i) - charVal (chr b i)) := by
  induction a generalizing b with
  | nil =>
    cases b with
    | nil => exact .inl ⟨rfl, rfl⟩
    | cons d t =>
      obtain ⟨hd, -⟩ := List.ne_and_not_mem_of_not_mem_cons hb
      exact .inr ⟨0, Nat.zero_le _, firstDifference_zero hd, strcmp_nil _⟩
  | cons c s ih =>
    obtain ⟨hc, hs⟩ := List.ne_and_not_mem_of_not_mem_cons ha
    cases b with
    | nil => exact .inr ⟨0, Nat.zero_le _, firstDifference_zero hc.symm, strcmp_cons_nil s hc.symm⟩
    | cons d t =>
      obtain ⟨-, ht⟩ := List.ne_and_not_mem_of_not_mem_cons hb
      rw [strcmp_cons s t hc.symm]
      by_cases hcd : c = d
      · subst hcd
        rw [if_pos rfl]
        rcases ih hs ht with ⟨rfl, hret⟩ | ⟨i, hi, hfirst, hret⟩
        · exact .inl ⟨rfl, hret⟩
        · refine .inr ⟨i + 1, ?_, hfirst.cons, hret⟩
          simp only [List.length_cons]
          omega
      · rw [if_neg hcd]
        exact .inr ⟨0, Nat.zero_le _, firstDifference_zero hcd, rfl⟩

/-- The signed and the unsigned difference have the same sign in one half of the byte values. -/
theorem sign_charVal_sub_iff (h : c ≠ d) :
    (charVal c - charVal d).sign = ((c.toNat : Int) - d.toNat).sign ↔ (c.toNat < 128 ↔ d.toNat < 128) := by
  have hne : c.toNat ≠ d.toNat := fun heq => h (UInt8.toNat_inj.mp heq)
  have hc := c.toNat_lt
  have hd := d.toNat_lt
  have hsign : ∀ x : Int, x ≠ 0 → x.sign = if 0 < x then 1 else -1 := by
    intro x hx
    split_ifs with hpos
    · exact Int.sign_eq_one_of_pos hpos
    · exact Int.sign_eq_neg_one_of_neg (by omega)
  unfold charVal
  rw [hsign _ (by split_ifs <;> omega), hsign _ (by omega)]
  split_ifs <;> grind

/-! ## One order -/

/-- Both calls return, and the results have the same sign. -/
def SameSign (x y : Option Int) : Prop := ∃ r r', x = some r ∧ y = some r' ∧ r.sign = r'.sign

/-- The three functions order the strings alike. -/
structure ComparesAlike (a b : Str) (count : Nat) : Prop where
  memcmp_sign : SameSign (strcmp a b)
    (memcmp (stringBuffer a) (stringBuffer b) (min (strlen a) (strlen b) + 1))
  strncmp_sign : SameSign (strncmp a b count) (strcmp (a.take count) (b.take count))

theorem sameSign_strcmp (ha : 0 ∉ a) (hb : 0 ∉ b) : SameSign (strcmp a b) (strcmp a b) := by
  rcases strcmp_eq ha hb with ⟨-, hret⟩ | ⟨i, -, -, hret⟩
  · exact ⟨_, _, hret, hret, rfl⟩
  · exact ⟨_, _, hret, hret, rfl⟩

/-- **One order.** For all strings and counts: the functions order the strings alike exactly when
`memcmp` gets to the first difference with its index, and the characters there are both ASCII
or both not. -/
theorem comparesAlike_iff (ha : 0 ∉ a) (hb : 0 ∉ b) (count : Nat) :
    ComparesAlike a b count ↔
      (min a.length b.length + 1 < 2 ^ 31 ∨ ∃ i ≤ min a.length b.length, i < 2 ^ 31 ∧ chr a i ≠ chr b i) ∧
      ∀ i ≤ min a.length b.length, FirstDifference (stringBuffer a) (stringBuffer b) i →
        ((chr a i).toNat < 128 ↔ (chr b i).toNat < 128) := by
  have hmem := fun r => @memcmp_eq_some (stringBuffer a) (stringBuffer b) (min a.length b.length + 1)
    (Nat.succ_le_succ (min_le_left _ _)) (Nat.succ_le_succ (min_le_right _ _)) r
  have htrunc : SameSign (strncmp a b count) (strcmp (a.take count) (b.take count)) := by
    rw [strncmp_eq ha hb]
    exact sameSign_strcmp (fun h => ha (List.mem_of_mem_take h)) fun h => hb (List.mem_of_mem_take h)
  have hiff : ComparesAlike a b count ↔ SameSign (strcmp a b)
      (memcmp (stringBuffer a) (stringBuffer b) (min a.length b.length + 1)) := by
    rw [← strlen_eq ha, ← strlen_eq hb]
    exact ⟨fun h => h.memcmp_sign, fun h => ⟨h, htrunc⟩⟩
  rw [hiff]
  rcases strcmp_eq ha hb with ⟨rfl, hret⟩ | ⟨i, hi, hfirst, hret⟩
  · -- equal strings
    have hnone : ∀ j, ¬FirstDifference (stringBuffer a) (stringBuffer a) j := fun j h => h.differ rfl
    constructor
    · rintro ⟨r, r', -, hr', -⟩
      refine ⟨.inl ?_, fun j _ h => absurd h (hnone j)⟩
      rcases (hmem r').mp hr' with ⟨hlt, -⟩ | ⟨d, -, -, h, -⟩
      · exact hlt
      · exact absurd h (hnone d)
    · rintro ⟨hlt | ⟨j, -, -, hne⟩, -⟩
      · exact ⟨0, 0, hret, (hmem 0).mpr (.inl ⟨hlt, fun _ _ => rfl, rfl⟩), rfl⟩
      · exact absurd rfl hne
  · have hsign := sign_charVal_sub_iff hfirst.differ
    constructor
    · rintro ⟨r, r', hr, hr', hsame⟩
      rw [hret] at hr
      obtain rfl := Option.some.inj hr
      rcases (hmem r').mp hr' with ⟨-, hall, -⟩ | ⟨d, -, hlt, h, rfl⟩
      · exact absurd hall (hfirst.not_agree (by omega))
      · obtain rfl := hfirst.unique h
        refine ⟨.inr ⟨i, hi, hlt, h.differ⟩, fun j _ hj => ?_⟩
        obtain rfl := hfirst.unique hj
        exact hsign.mp hsame
    · rintro ⟨hreach, hhalf⟩
      have hlt : i < 2 ^ 31 := by
        rcases hreach with hlt | ⟨j, -, hlt, hne⟩
        · omega
        · by_contra hge
          exact hne (hfirst.agree j (by omega))
      exact ⟨_, _, hret, (hmem _).mpr (.inr ⟨i, by omega, hlt, hfirst, rfl⟩), hsign.mpr (hhalf i hi hfirst)⟩

theorem comparesAlike_iff_ab : ComparesAlike [97, 98] [97, 99] 1 := by
  refine (comparesAlike_iff (by decide) (by decide) 1).mpr ⟨.inl (by decide), fun i hi _ => ?_⟩
  have hi' : i ≤ 2 := hi
  interval_cases i <;> decide

/-- `strcmp` puts the byte 0x80 before 1, `memcmp` behind it. -/
theorem not_comparesAlike_nonAscii : ¬∀ (a b : Str) (count : Nat), 0 ∉ a → 0 ∉ b → ComparesAlike a b count := by
  intro h
  obtain ⟨r, r', hr, hr', hsign⟩ := (h [128] [1] 1 (by decide) (by decide)).memcmp_sign
  have hstr : strcmp [128] [1] = some (-129) := by decide
  have hfirst : FirstDifference (stringBuffer [128]) (stringBuffer [1]) 0 := firstDifference_zero (by decide)
  have hmem : memcmp (stringBuffer [128]) (stringBuffer [1]) 2 = some 127 := by
    refine (memcmp_eq_some (le_refl 2) (le_refl 2)).mpr (.inr ⟨0, ?_⟩)
    exact ⟨by decide, by decide, hfirst, by decide⟩
  obtain rfl := Option.some.inj (hstr.symm.trans hr)
  obtain rfl := Option.some.inj (hmem.symm.trans hr')
  exact absurd hsign (by decide)

end KoalemOS.Libc
