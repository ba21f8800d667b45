import KoalemOS.Library.ByteMemory

/-!
# `memcmp` (`src/libc/string.c`)

`memcmp` compares words of eight bytes and then bytes, and counts both in an `int`. An `int`
operation whose result is no `int` has no value (`none`), and neither has a read behind the end
of a buffer. The bytes are compared as they should be exactly when the comparison ends among
the first 2^31 of them (`memcmp_iff`).
-/

namespace KoalemOS.Libc

open KoalemOS.Library

/-! ## The code -/

/-- A range of memory that may be read. -/
structure Buffer where
  bytes : Mem
  size : Nat

namespace Buffer

/-- `((uint64_t*)buf)[i]` -/
def qwordAt (buf : Buffer) (i : Nat) : Option Nat :=
  if 8 * i + 8 ≤ buf.size then some (buf.bytes.load64 (8 * i)) else none

/-- `((uint8_t*)buf)[i]` -/
def byteAt (buf : Buffer) (i : Nat) : Option UInt8 :=
  if i < buf.size then some (buf.bytes i) else none

/-- The first `count` bytes, and nothing else. -/
def upTo (buf : Buffer) (count : Nat) : Buffer := ⟨buf.bytes, count⟩

end Buffer

/-- The result of an operation on `int`s that are not negative. -/
def toInt (x : Nat) : Option Nat := if x < 2 ^ 31 then some x else none

/-- The loop over the words from `last_qword` on, with `k` to go: where it ends. -/
def qwordLoop (lhs rhs : Buffer) (lastQword : Nat) : Nat → Option Nat
  | 0 => some lastQword
  | k + 1 => do
    let a ← lhs.qwordAt lastQword
    let b ← rhs.qwordAt lastQword
    if a ≠ b then return lastQword
    else
      let next ← toInt (lastQword + 1)
      qwordLoop lhs rhs next k

/-- The loop over the bytes from `i` on, with `k` to go. -/
def byteLoop (lhs rhs : Buffer) (i : Nat) : Nat → Option Int
  | 0 => some 0
  | k + 1 => do
    let a ← lhs.byteAt i
    let b ← rhs.byteAt i
    let diff : Int := a.toNat - b.toNat
    if diff ≠ 0 then return diff
    else
      let next ← toInt (i + 1)
      byteLoop lhs rhs next k

/-- `memcmp` -/
def memcmp (lhs rhs : Buffer) (count : Nat) : Option Int := do
  let lastQword ← qwordLoop lhs rhs 0 (count >>> 3)
  let i ← toInt (lastQword <<< 3)
  byteLoop lhs rhs i (count - i)

/-! ## The first difference -/

variable {lhs rhs : Buffer} {count n d : Nat}

/-- The first `n` bytes are equal. -/
def Agree (lhs rhs : Buffer) (n : Nat) : Prop := ∀ i < n, lhs.bytes i = rhs.bytes i

/-- The first bytes that differ are those at `d`. -/
structure FirstDifference (lhs rhs : Buffer) (d : Nat) : Prop where
  differ : lhs.bytes d ≠ rhs.bytes d
  agree : Agree lhs rhs d

/-- The difference of two bytes as unsigned numbers. -/
def difference (lhs rhs : Buffer) (d : Nat) : Int := (lhs.bytes d).toNat - (rhs.bytes d).toNat

theorem Agree.mono (h : Agree lhs rhs n) (hle : count ≤ n) : Agree lhs rhs count :=
  fun i hi => h i (Nat.lt_of_lt_of_le hi hle)

theorem Agree.succ (h : Agree lhs rhs n) (hn : lhs.bytes n = rhs.bytes n) : Agree lhs rhs (n + 1) := by
  intro i hi
  rcases Nat.lt_succ_iff_lt_or_eq.mp hi with hlt | rfl
  · exact h i hlt
  · exact hn

theorem FirstDifference.not_agree (h : FirstDifference lhs rhs d) (hd : d < n) : ¬Agree lhs rhs n :=
  fun ha => h.differ (ha d hd)

theorem FirstDifference.unique {e : Nat} (h : FirstDifference lhs rhs d) (h' : FirstDifference lhs rhs e) :
    d = e := by
  rcases Nat.lt_trichotomy d e with hlt | heq | hlt
  · exact absurd (h'.agree d hlt) h.differ
  · exact heq
  · exact absurd (h.agree e hlt) h'.differ

/-- Where not all bytes are equal there is a first difference. -/
theorem exists_firstDifference (h : ¬Agree lhs rhs n) : ∃ d < n, FirstDifference lhs rhs d := by
  induction n with
  | zero => exact absurd (fun i hi => absurd hi (Nat.not_lt_zero i)) h
  | succ n ih =>
    by_cases hn : Agree lhs rhs n
    · exact ⟨n, Nat.lt_succ_self n, fun heq => h (hn.succ heq), hn⟩
    · obtain ⟨d, hd, hfirst⟩ := ih hn
      exact ⟨d, Nat.lt_succ_of_lt hd, hfirst⟩

theorem difference_eq_zero : difference lhs rhs d = 0 ↔ lhs.bytes d = rhs.bytes d := by
  rw [difference, ← UInt8.toNat_inj]
  omega

/-! ## The loop over the words -/

/-- Two words are equal when their eight bytes are. -/
theorem load64_eq_iff (h : Agree lhs rhs (8 * n)) :
    lhs.bytes.load64 (8 * n) = rhs.bytes.load64 (8 * n) ↔ Agree lhs rhs (8 * (n + 1)) := by
  constructor
  · intro heq i hi
    by_cases hlt : i < 8 * n
    · exact h i hlt
    · exact Mem.byte_eq_of_loadLE_eq heq (by omega) (by omega)
  · intro hall
    exact Mem.loadLE_congr fun i _ hi => hall i (by omega)

/-- The loop over the words ends at the first two that differ, or behind the last. -/
theorem qwordLoop_eq_some {p k q : Nat} (hl : 8 * (p + k) ≤ lhs.size) (hr : 8 * (p + k) ≤ rhs.size)
    (hp : p < 2 ^ 31) (h : Agree lhs rhs (8 * p)) :
    qwordLoop lhs rhs p k = some q ↔
      p ≤ q ∧ q ≤ p + k ∧ q < 2 ^ 31 ∧ Agree lhs rhs (8 * q) ∧
        (q < p + k → ¬Agree lhs rhs (8 * (q + 1))) := by
  induction k generalizing p with
  | zero =>
    rw [qwordLoop, Option.some.injEq]
    constructor
    · rintro rfl
      exact ⟨le_rfl, le_rfl, hp, h, fun hlt => absurd hlt (lt_irrefl _)⟩
    · rintro ⟨h₁, h₂, -⟩
      omega
  | succ k ih =>
    have hread : ∀ buf : Buffer, 8 * (p + (k + 1)) ≤ buf.size → buf.qwordAt p = some (buf.bytes.load64 (8 * p)) :=
      fun buf hbuf => if_pos (by omega)
    rw [qwordLoop, hread lhs hl, hread rhs hr]
    simp only [Option.bind_eq_bind, Option.bind_some]
    have hwords := load64_eq_iff h
    by_cases heq : lhs.bytes.load64 (8 * p) = rhs.bytes.load64 (8 * p)
    · have hnext := hwords.mp heq
      rw [if_neg (not_not.mpr heq)]
      have hne : p ≤ q → Agree lhs rhs (8 * q) → (q < p + (k + 1) → ¬Agree lhs rhs (8 * (q + 1))) →
          p + 1 ≤ q := by
        intro h₁ _ hstop
        by_contra hlt
        obtain rfl : q = p := by omega
        exact hstop (by omega) hnext
      by_cases hlt : p + 1 < 2 ^ 31
      · rw [toInt, if_pos hlt, Option.bind_some, ih (by omega) (by omega) hlt hnext, Nat.add_right_comm]
        constructor
        · rintro ⟨h₁, h₂, h₃, h₄, h₅⟩
          exact ⟨by omega, h₂, h₃, h₄, h₅⟩
        · rintro ⟨h₁, h₂, h₃, h₄, h₅⟩
          exact ⟨hne h₁ h₄ h₅, h₂, h₃, h₄, h₅⟩
      · -- `last_qword++` leaves the `int`s
        rw [toInt, if_neg hlt]
        refine iff_of_false (by simp) ?_
        rintro ⟨h₁, -, h₃, h₄, h₅⟩
        have := hne h₁ h₄ h₅
        omega
    · have hstop : ¬Agree lhs rhs (8 * (p + 1)) := fun ha => heq (hwords.mpr ha)
      rw [if_pos heq]
      constructor
      · intro hq
        obtain rfl : p = q := Option.some.inj hq
        exact ⟨le_rfl, by omega, hp, h, fun _ => hstop⟩
      · rintro ⟨h₁, -, -, h₄, -⟩
        have : q ≤ p := by
          by_contra hlt
          exact hstop (h₄.mono (by omega))
        obtain rfl : p = q := by omega
        rfl

/-! ## The loop over the bytes -/

/-- The loop over the bytes returns the first difference, or 0 behind the last byte. -/
theorem byteLoop_eq_some {i k : Nat} {r : Int} (hl : i + k ≤ lhs.size) (hr : i + k ≤ rhs.size)
    (hi : i < 2 ^ 31) (h : Agree lhs rhs i) :
    byteLoop lhs rhs i k = some r ↔
      (i + k < 2 ^ 31 ∧ Agree lhs rhs (i + k) ∧ r = 0) ∨
        ∃ d < i + k, d < 2 ^ 31 ∧ FirstDifference lhs rhs d ∧ r = difference lhs rhs d := by
  induction k generalizing i with
  | zero =>
    rw [byteLoop, Option.some.injEq, Nat.add_zero]
    constructor
    · rintro rfl
      exact .inl ⟨hi, h, rfl⟩
    · rintro (⟨-, -, rfl⟩ | ⟨d, hd, -, hfirst, -⟩)
      · rfl
      · exact absurd h (hfirst.not_agree hd)
  | succ k ih =>
    have hread : ∀ buf : Buffer, i + (k + 1) ≤ buf.size → buf.byteAt i = some (buf.bytes i) :=
      fun buf hbuf => if_pos (by omega)
    rw [byteLoop, hread lhs hl, hread rhs hr]
    simp only [Option.bind_eq_bind, Option.bind_some]
    show (if difference lhs rhs i ≠ 0 then some (difference lhs rhs i) else _) = _ ↔ _
    by_cases heq : lhs.bytes i = rhs.bytes i
    · have hnext := h.succ heq
      rw [if_neg (not_not.mpr (difference_eq_zero.mpr heq))]
      by_cases hlt : i + 1 < 2 ^ 31
      · rw [toInt, if_pos hlt, Option.bind_some, ih (by omega) (by omega) hlt hnext,
          show i + 1 + k = i + (k + 1) by omega]
      · -- `i++` leaves the `int`s
        rw [toInt, if_neg hlt]
        refine iff_of_false (by simp) ?_
        rintro (⟨hlt', -⟩ | ⟨d, -, hd, hfirst, -⟩)
        · omega
        · exact hfirst.not_agree (by omega) hnext
    · have hfirst : FirstDifference lhs rhs i := ⟨heq, h⟩
      rw [if_pos (fun hzero => heq (difference_eq_zero.mp hzero)), Option.some.injEq]
      constructor
      · rintro rfl
        exact .inr ⟨i, by omega, hi, hfirst, rfl⟩
      · rintro (⟨-, hall, -⟩ | ⟨d, -, -, hd, rfl⟩)
        · exact absurd hall (hfirst.not_agree (by omega))
        · rw [hfirst.unique hd]

/-! ## `memcmp` -/

/-- What `memcmp` returns, and when it returns. -/
theorem memcmp_eq_some (hl : count ≤ lhs.size) (hr : count ≤ rhs.size) {r : Int} :
    memcmp lhs rhs count = some r ↔
      (count < 2 ^ 31 ∧ Agree lhs rhs count ∧ r = 0) ∨
        ∃ d < count, d < 2 ^ 31 ∧ FirstDifference lhs rhs d ∧ r = difference lhs rhs d := by
  have hwords : count >>> 3 = count / 8 := Nat.shiftRight_eq_div_pow count 3
  have hstart : Agree lhs rhs (8 * 0) := fun i hi => absurd hi (Nat.not_lt_zero i)
  have hloop : ∀ q, qwordLoop lhs rhs 0 (count >>> 3) = some q ↔
      0 ≤ q ∧ q ≤ count / 8 ∧ q < 2 ^ 31 ∧ Agree lhs rhs (8 * q) ∧
        (q < count / 8 → ¬Agree lhs rhs (8 * (q + 1))) := by
    intro q
    have := @qwordLoop_eq_some lhs rhs 0 (count / 8) q (by omega) (by omega) (by norm_num) hstart
    rw [Nat.zero_add] at this
    rwa [hwords]
  have htail : ∀ q ≤ count / 8, 8 * q < 2 ^ 31 → Agree lhs rhs (8 * q) →
      (byteLoop lhs rhs (8 * q) (count - 8 * q) = some r ↔ _) := fun q hq hlt h =>
    byteLoop_eq_some (r := r) (by omega) (by omega) hlt h
  have hsum : ∀ q ≤ count / 8, 8 * q + (count - 8 * q) = count := fun q hq => by omega
  have hshift : ∀ q : Nat, q <<< 3 = 8 * q := fun q => by rw [Nat.shiftLeft_eq]; omega
  unfold memcmp
  constructor
  · intro h
    obtain ⟨q, hq, h⟩ := Option.bind_eq_some_iff.mp h
    obtain ⟨i, hi, h⟩ := Option.bind_eq_some_iff.mp h
    obtain ⟨-, hle, -, hagree, -⟩ := (hloop q).mp hq
    rw [hshift, toInt] at hi
    split_ifs at hi with hlt
    obtain rfl := Option.some.inj hi
    have := (htail q hle hlt hagree).mp h
    rwa [hsum q hle] at this
  · intro h
    -- the word of the first difference, or the bytes behind the last word
    obtain ⟨q, hle, hlt, hagree, hstop⟩ : ∃ q, q ≤ count / 8 ∧ 8 * q < 2 ^ 31 ∧ Agree lhs rhs (8 * q) ∧
        (q < count / 8 → ¬Agree lhs rhs (8 * (q + 1))) := by
      rcases h with ⟨hlt, hall, -⟩ | ⟨d, hd, hlt, hfirst, -⟩
      · exact ⟨count / 8, le_rfl, by omega, hall.mono (by omega), fun hc => absurd hc (lt_irrefl _)⟩
      · exact ⟨d / 8, by omega, by omega, hfirst.agree.mono (by omega), fun _ =>
          hfirst.not_agree (by omega)⟩
    rw [(hloop q).mpr ⟨Nat.zero_le q, hle, by omega, hagree, hstop⟩]
    simp only [Option.bind_eq_bind, Option.bind_some]
    rw [hshift, toInt, if_pos hlt, Option.bind_some, htail q hle hlt hagree, hsum q hle]
    exact h

/-- `memcmp` returns, has read no byte behind the first `count`, and the result is 0 when these
are equal and else has the sign of the first difference. -/
def ComparesBytes (lhs rhs : Buffer) (count : Nat) : Prop :=
  ∃ r, memcmp lhs rhs count = some r ∧ memcmp (lhs.upTo count) (rhs.upTo count) count = some r ∧
    (r = 0 ↔ Agree lhs rhs count) ∧
    ∀ d < count, FirstDifference lhs rhs d → r.sign = (difference lhs rhs d).sign

/-- **`memcmp`.** Two buffers are compared byte by byte exactly when there are less than 2^31
bytes to compare or two of the first 2^31 differ. -/
theorem memcmp_iff (hl : count ≤ lhs.size) (hr : count ≤ rhs.size) :
    ComparesBytes lhs rhs count ↔
      count < 2 ^ 31 ∨ ∃ i < count, i < 2 ^ 31 ∧ lhs.bytes i ≠ rhs.bytes i := by
  have hfull := fun r => @memcmp_eq_some lhs rhs count hl hr r
  have hpart := fun r => @memcmp_eq_some (lhs.upTo count) (rhs.upTo count) count le_rfl le_rfl r
  constructor
  · rintro ⟨r, hr, -⟩
    rcases (hfull r).mp hr with ⟨hlt, -⟩ | ⟨d, hd, hlt, hfirst, -⟩
    · exact .inl hlt
    · exact .inr ⟨d, hd, hlt, hfirst.differ⟩
  · intro h
    by_cases hall : Agree lhs rhs count
    · have hlt : count < 2 ^ 31 := h.resolve_right fun ⟨i, hi, _, hne⟩ => hne (hall i hi)
      refine ⟨0, (hfull 0).mpr (.inl ⟨hlt, hall, rfl⟩), (hpart 0).mpr (.inl ⟨hlt, hall, rfl⟩),
        iff_of_true rfl hall, fun d hd hfirst => absurd hall (hfirst.not_agree hd)⟩
    · obtain ⟨d, hd, hfirst⟩ := exists_firstDifference hall
      have hlt : d < 2 ^ 31 := by
        rcases h with hlt | ⟨i, -, hlt, hne⟩
        · omega
        · by_contra hge
          exact hne (hfirst.agree i (by omega))
      have hpart' : FirstDifference (lhs.upTo count) (rhs.upTo count) d := ⟨hfirst.differ, hfirst.agree⟩
      refine ⟨difference lhs rhs d, (hfull _).mpr (.inr ⟨d, hd, hlt, hfirst, rfl⟩),
        (hpart _).mpr (.inr ⟨d, hd, hlt, hpart', rfl⟩), ?_, ?_⟩
      · exact iff_of_false (fun hzero => hfirst.differ (difference_eq_zero.mp hzero)) hall
      · intro e _ he
        rw [hfirst.unique he]

/-- `n` bytes that are 0, and one byte more. -/
def zerosThen (n : Nat) (b : UInt8) : Buffer := ⟨fun i => if i = n then b else 0, n + 1⟩

theorem zerosThen_agree (n : Nat) (b c : UInt8) : Agree (zerosThen n b) (zerosThen n c) n := by
  intro i hi
  show (if i = n then b else 0) = if i = n then c else 0
  rw [if_neg (Nat.ne_of_lt hi), if_neg (Nat.ne_of_lt hi)]

theorem memcmp_iff_three : ComparesBytes (zerosThen 2 200) (zerosThen 2 1) 3 :=
  (memcmp_iff (le_refl 3) (le_refl 3)).mpr (.inl (by norm_num))

/-- A difference behind 2^31 equal bytes is not seen. -/
theorem memcmp_zerosThen {n : Nat} (hn : 2 ^ 31 ≤ n) (b c : UInt8) :
    ¬ComparesBytes (zerosThen n b) (zerosThen n c) (n + 1) := by
  rintro ⟨r, hr, -⟩
  have hsize : ∀ b, n + 1 ≤ (zerosThen n b).size := fun _ => le_rfl
  rcases (memcmp_eq_some (hsize b) (hsize c)).mp hr with ⟨hlt, -⟩ | ⟨d, -, hlt, hfirst, -⟩
  · omega
  · exact hfirst.differ (zerosThen_agree n b c d (by omega))

theorem memcmp_not_every_count : ¬∀ (lhs rhs : Buffer) (count : Nat), count < 2 ^ 64 →
    count ≤ lhs.size → count ≤ rhs.size → ComparesBytes lhs rhs count := fun h =>
  memcmp_zerosThen (le_refl (2 ^ 31)) 0 1 (h _ _ _ (by norm_num) le_rfl le_rfl)

end KoalemOS.Libc
