import KoalemOS.Libc.Strstr
import Mathlib.Order.Bounds.Basic

/-!
# `strchr` and `strrchr` (`src/libc/string.c`)

Both compare `(unsigned char)*str` with `(char)ch`, which is signed: no character from 0x80 on
is equal to itself. The loop of `strchr` moreover never moves the pointer: it runs for ever
unless it ends at the first character (`strchr_iff`). `strrchr` does move it, and misses only
the characters from 0x80 on (`strrchr_iff`).
-/

namespace KoalemOS.Libc

variable {str : Str} {ch : Int} {p : Nat}

/-! ## The code -/

/-- `(char)ch` -/
def toChar (ch : Int) : Int := charVal (UInt8.ofInt ch)

/-- The loop of `strchr` and what follows it, for a number of rounds. -/
def strchr (ch : Int) : Nat → Str → Option (Option Str)
  | 0, _ => none
  | rounds + 1, cur =>
    if peek cur ≠ 0 then
      if ((cur.headD 0).toNat : Int) = toChar ch then some (some cur)
      -- nothing has changed for the next round
      else strchr ch rounds cur
    else if toChar ch ≠ 0 then some none
    else some (some cur)

/-- The loop of `strrchr`: `ret` and the pointer behind it. -/
def strrchrLoop (ch : Int) (ret : Option Str) : Str → Option Str × Str
  | [] => (ret, [])
  | c :: cur =>
    if charVal c ≠ 0 then
      strrchrLoop ch (if (c.toNat : Int) = toChar ch then some (c :: cur) else ret) cur
    else (ret, c :: cur)

/-- `strrchr` -/
def strrchr (str : Str) (ch : Int) : Option Str :=
  let (ret, cur) := strrchrLoop ch none str
  if toChar ch = 0 ∧ peek cur = 0 then some cur else ret

/-! ## What is to be found -/

/-- The character at position `p` is `(char)ch`; the terminator counts. -/
def CharIs (str : Str) (ch : Int) (p : Nat) : Prop := charAt str p = some (toChar ch)

/-- What `strchr` is to return: the first position with the character, or null. -/
def FindsFirstChar (str : Str) (ch : Int) : Prop :=
  (∃ p, IsLeast {p | CharIs str ch p} p ∧ ∃ rounds, strchr ch rounds str = some (some (str.drop p))) ∨
    (∀ p, ¬CharIs str ch p) ∧ ∃ rounds, strchr ch rounds str = some none

/-- What `strrchr` is to return: the last position with the character, or null. -/
def FindsLastChar (str : Str) (ch : Int) : Prop :=
  (∃ p, IsGreatest {p | CharIs str ch p} p ∧ strrchr str ch = some (str.drop p)) ∨
    (∀ p, ¬CharIs str ch p) ∧ strrchr str ch = none

theorem charIs_iff : CharIs str ch p ↔ (str ++ [0])[p]? = some (UInt8.ofInt ch) := by
  unfold CharIs charAt toChar
  rw [Option.map_eq_some_iff]
  constructor
  · rintro ⟨c, hc, heq⟩
    rw [hc, charVal_inj.mp heq]
  · exact fun hc => ⟨_, hc, rfl⟩

/-- A character that is not the terminator is one of the string's. -/
theorem charIs_iff_of_ne (hne : UInt8.ofInt ch ≠ 0) : CharIs str ch p ↔ str[p]? = some (UInt8.ofInt ch) := by
  rw [charIs_iff]
  by_cases hp : p < str.length
  · rw [List.getElem?_append_left hp]
  · rw [List.getElem?_append_right (by omega), List.getElem?_eq_none (show str.length ≤ p by omega)]
    refine iff_of_false (fun h => ?_) (by simp)
    obtain ⟨hlt, heq⟩ := List.getElem?_eq_some_iff.mp h
    simp only [List.getElem_singleton] at heq
    exact hne heq.symm

/-- The terminator is at the end and nowhere else. -/
theorem charIs_iff_of_eq (hstr : 0 ∉ str) (heq : UInt8.ofInt ch = 0) : CharIs str ch p ↔ p = str.length := by
  rw [charIs_iff, heq]
  constructor
  · intro h
    by_contra hp
    rcases Nat.lt_or_gt_of_ne hp with hlt | hgt
    · rw [List.getElem?_append_left hlt] at h
      exact hstr (List.mem_of_getElem? h)
    · rw [List.getElem?_eq_none (by rw [List.length_append, List.length_singleton]; omega)] at h
      cases h
  · rintro rfl
    rw [List.getElem?_append_right le_rfl, Nat.sub_self]
    rfl

theorem toChar_eq_zero : toChar ch = 0 ↔ UInt8.ofInt ch = 0 := charVal_eq_zero

/-- The comparison of an unsigned with a signed character: it holds of equal ones below 0x80. -/
theorem toNat_eq_toChar {c : UInt8} :
    (c.toNat : Int) = toChar ch ↔ c = UInt8.ofInt ch ∧ (UInt8.ofInt ch).toNat < 128 := by
  have hlt := (UInt8.ofInt ch).toNat_lt
  rw [← UInt8.toNat_inj]
  unfold toChar charVal
  split_ifs <;> omega

/-! ## `strchr` -/

theorem strchr_nil (rounds : Nat) :
    strchr ch (rounds + 1) [] = if toChar ch ≠ 0 then some none else some (some []) := by
  rw [strchr, if_neg (by decide)]

theorem strchr_cons {c : UInt8} {cur : Str} (hc : c ≠ 0) (rounds : Nat) :
    strchr ch (rounds + 1) (c :: cur) =
      if (c.toNat : Int) = toChar ch then some (some (c :: cur)) else strchr ch rounds (c :: cur) := by
  have hpeek : peek (c :: cur) ≠ 0 := fun h => hc (charVal_eq_zero.mp h)
  rw [strchr, if_pos hpeek, List.headD_cons]

/-- A round that finds neither the character nor the end is the same again. -/
theorem strchr_stays {c : UInt8} {cur : Str} (hc : c ≠ 0) (hne : (c.toNat : Int) ≠ toChar ch) (rounds : Nat) :
    strchr ch rounds (c :: cur) = none := by
  induction rounds with
  | zero => rfl
  | succ rounds ih =>
    rw [strchr_cons hc, if_neg hne]
    exact ih

/-- **`strchr`** ends, and it returns the first position with the character, or null, exactly
when the string is empty, or begins with the character and this is below 0x80. -/
theorem strchr_iff (hstr : 0 ∉ str) :
    FindsFirstChar str ch ↔ str = [] ∨ (UInt8.ofInt ch).toNat < 128 ∧ str.head? = some (UInt8.ofInt ch) := by
  cases str with
  | nil =>
    refine iff_of_true ?_ (.inl rfl)
    by_cases hzero : UInt8.ofInt ch = 0
    · refine .inl ⟨0, ⟨(charIs_iff_of_eq hstr hzero).mpr rfl, fun _ _ => Nat.zero_le _⟩, 1, ?_⟩
      rw [strchr_nil, if_neg (not_not.mpr (toChar_eq_zero.mpr hzero))]
      rfl
    · refine .inr ⟨fun p hp => ?_, 1, ?_⟩
      · rw [charIs_iff_of_ne hzero] at hp
        cases hp
      · rw [strchr_nil, if_pos (by rwa [Ne, toChar_eq_zero])]
  | cons c cur =>
    have hc : c ≠ 0 := fun hc => hstr (hc ▸ List.mem_cons_self)
    have hcond : (c :: cur = [] ∨ (UInt8.ofInt ch).toNat < 128 ∧ (c :: cur).head? = some (UInt8.ofInt ch)) ↔
        (c.toNat : Int) = toChar ch := by
      rw [toNat_eq_toChar, List.head?_cons, Option.some.injEq]
      simp [and_comm]
    rw [hcond]
    constructor
    · intro hfinds
      by_contra hne
      rcases hfinds with ⟨_, -, rounds, hret⟩ | ⟨-, rounds, hret⟩
      · rw [strchr_stays hc hne] at hret
        cases hret
      · rw [strchr_stays hc hne] at hret
        cases hret
    · intro heq
      refine .inl ⟨0, ⟨?_, fun _ _ => Nat.zero_le _⟩, 1, ?_⟩
      · exact charIs_iff.mpr (congrArg some (toNat_eq_toChar.mp heq).1)
      · rw [strchr_cons hc, if_pos heq]
        rfl

/-- `a` in `ab`. -/
theorem strchr_iff_a : FindsFirstChar [97, 98] 97 := (strchr_iff (by decide)).mpr (.inr (by decide))

/-- `b` in `ab` is never found: the loop stays at the first character. -/
theorem strchr_hangs : ¬FindsFirstChar [97, 98] 98 := by
  have hstays : ∀ rounds, strchr 98 rounds [97, 98] = none := strchr_stays (by decide) (by decide)
  rintro (⟨_, -, rounds, hret⟩ | ⟨-, rounds, hret⟩)
  · rw [hstays rounds] at hret
    cases hret
  · rw [hstays rounds] at hret
    cases hret

/-! ## `strrchr` -/

/-- The loop without a character that compares equal: `ret` stays as it is. -/
theorem strrchrLoop_none (hstr : 0 ∉ str) (hnone : ∀ c ∈ str, (c.toNat : Int) ≠ toChar ch) (ret : Option Str) :
    strrchrLoop ch ret str = (ret, []) := by
  induction str with
  | nil => rfl
  | cons c cur ih =>
    obtain ⟨hc, hcur⟩ := List.ne_and_not_mem_of_not_mem_cons hstr
    obtain ⟨hne, hrest⟩ := List.forall_mem_cons.mp hnone
    rw [strrchrLoop, if_pos (by rw [Ne, charVal_eq_zero]; exact hc.symm), if_neg hne]
    exact ih hcur hrest

/-- The loop with one: it ends with the last of them. -/
theorem strrchrLoop_last (hstr : 0 ∉ str) (hlt : (UInt8.ofInt ch).toNat < 128) (hmem : UInt8.ofInt ch ∈ str)
    (ret : Option Str) :
    ∃ p, IsGreatest {p | str[p]? = some (UInt8.ofInt ch)} p ∧ strrchrLoop ch ret str = (some (str.drop p), []) := by
  induction str generalizing ret with
  | nil => cases hmem
  | cons c cur ih =>
    obtain ⟨hc, hcur⟩ := List.ne_and_not_mem_of_not_mem_cons hstr
    rw [strrchrLoop, if_pos (by rw [Ne, charVal_eq_zero]; exact hc.symm)]
    by_cases hrest : UInt8.ofInt ch ∈ cur
    · -- a later one replaces whatever is found here
      obtain ⟨p, ⟨hp, hlast⟩, hret⟩ := ih hcur hrest _
      refine ⟨p + 1, ⟨hp, fun q hq => ?_⟩, hret⟩
      cases q with
      | zero => exact Nat.zero_le _
      | succ q => exact Nat.succ_le_succ (hlast hq)
    · have hhead : UInt8.ofInt ch = c := (List.mem_cons.mp hmem).resolve_right hrest
      rw [if_pos (toNat_eq_toChar.mpr ⟨hhead.symm, hlt⟩), strrchrLoop_none hcur fun d hd heq =>
        hrest ((toNat_eq_toChar.mp heq).1 ▸ hd)]
      refine ⟨0, ⟨congrArg some hhead.symm, fun q hq => ?_⟩, rfl⟩
      cases q with
      | zero => exact le_rfl
      | succ q =>
        have hq' : cur[q]? = some (UInt8.ofInt ch) := hq
        exact absurd (List.mem_of_getElem? hq') hrest

/-- **`strrchr`** returns the last position with the character, or null when there is none,
exactly when the character is below 0x80 or does not occur. -/
theorem strrchr_iff (hstr : 0 ∉ str) :
    FindsLastChar str ch ↔ (UInt8.ofInt ch).toNat < 128 ∨ UInt8.ofInt ch ∉ str := by
  have hnull : ∀ {ret : Option Str}, UInt8.ofInt ch ≠ 0 → strrchrLoop ch none str = (ret, []) →
      strrchr str ch = ret := by
    intro ret hne hloop
    unfold strrchr
    simp only [hloop]
    rw [if_neg fun h => hne (toChar_eq_zero.mp h.1)]
  by_cases hzero : UInt8.ofInt ch = 0
  · -- the terminator, which is not among the characters
    have hnone : ∀ c ∈ str, (c.toNat : Int) ≠ toChar ch := fun c hc heq =>
      hstr (hzero ▸ (toNat_eq_toChar.mp heq).1 ▸ hc)
    refine iff_of_true (.inl ⟨str.length, ⟨(charIs_iff_of_eq hstr hzero).mpr rfl, fun q hq =>
      ((charIs_iff_of_eq hstr hzero).mp hq).le⟩, ?_⟩) (.inr (hzero ▸ hstr))
    unfold strrchr
    simp only [strrchrLoop_none hstr hnone none]
    rw [if_pos ⟨toChar_eq_zero.mpr hzero, rfl⟩, List.drop_length]
  · by_cases hmem : UInt8.ofInt ch ∈ str
    · obtain ⟨p, hp⟩ := List.mem_iff_getElem?.mp hmem
      constructor
      · rintro (⟨q, -, hret⟩ | ⟨hnone, -⟩)
        · by_contra hhigh
          have hnone : ∀ c ∈ str, (c.toNat : Int) ≠ toChar ch := fun c _ heq =>
            hhigh (.inl (toNat_eq_toChar.mp heq).2)
          rw [hnull hzero (strrchrLoop_none hstr hnone none)] at hret
          cases hret
        · exact absurd ((charIs_iff_of_ne hzero).mpr hp) (hnone p)
      · intro hcond
        obtain ⟨q, hq, hloop⟩ := strrchrLoop_last hstr (hcond.resolve_right (not_not.mpr hmem)) hmem none
        refine .inl ⟨q, ?_, hnull hzero hloop⟩
        simp only [charIs_iff_of_ne hzero]
        exact hq
    · have hnone : ∀ c ∈ str, (c.toNat : Int) ≠ toChar ch := fun c hc heq =>
        hmem ((toNat_eq_toChar.mp heq).1 ▸ hc)
      refine iff_of_true (.inr ⟨fun p hp => ?_, hnull hzero (strrchrLoop_none hstr hnone none)⟩) (.inr hmem)
      exact hmem (List.mem_of_getElem? ((charIs_iff_of_ne hzero).mp hp))

/-- `a` in `aba`. -/
theorem strrchr_iff_a : FindsLastChar [97, 98, 97] 97 := (strrchr_iff (by decide)).mpr (.inl (by decide))

/-- The character 0xe9 is in the string, and `strrchr` returns null. -/
theorem strrchr_misses : ¬FindsLastChar [97, 0xe9] 0xe9 := by
  have hret : strrchr [97, 0xe9] 0xe9 = none := by decide
  rintro (⟨p, -, hfound⟩ | ⟨hnone, -⟩)
  · rw [hret] at hfound
    cases hfound
  · refine hnone 1 ?_
    unfold CharIs
    decide

end KoalemOS.Libc
