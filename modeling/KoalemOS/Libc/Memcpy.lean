import KoalemOS.Libc.Memmove

/-!
# `memset` and `memcpy` (`src/libc/string.c`)

Both go downwards: the bytes behind the last word first, and then the words. `memset` writes
words in which the byte is repeated (`bigVal`); the loops of `memcpy` are those `memmove` has
for a destination above its source.
-/

namespace KoalemOS.Libc

open KoalemOS.Library

variable {m m₀ : Mem} {dest src q count : Nat} {b : UInt8}

/-! ## The code -/

/-- `big_val` -/
def bigVal (b : UInt8) : Nat :=
  let v := b.toNat
  let v := wrap (v <<< 8) ||| v
  let v := wrap (v <<< 16) ||| v
  wrap (v <<< 32) ||| v

/-- `while(byte_count)` of `memset`, behind `q` words. -/
def fillBytes (dest q : Nat) (b : UInt8) : Nat → Mem → Mem
  | 0, m => m
  | k + 1, m => fillBytes dest q b k (m.storeByte (wrap (dest + (q * 8 + k))) b)

/-- `while(qword_count)` of `memset` -/
def fillWords (dest w : Nat) : Nat → Mem → Mem
  | 0, m => m
  | k + 1, m => fillWords dest w k (m.store64 (wrap (dest + 8 * k)) w)

/-- `memset`: the pointer it returns and the memory afterwards. -/
def memset (m : Mem) (dest : Nat) (ch : Int) (count : Nat) : Nat × Mem :=
  (dest, fillWords dest (bigVal (UInt8.ofInt ch)) (count / 8)
    (fillBytes dest (count / 8) (UInt8.ofInt ch) (count % 8) m))

/-- `memcpy` -/
def memcpy (m : Mem) (dest src count : Nat) : Nat × Mem :=
  (dest, wordsDown dest src (count / 8) (bytesDown dest src (count / 8) (count % 8) m))

/-! ## `memset` -/

/-- `n` ones in base 256. -/
def ones : Nat → Nat
  | 0 => 0
  | n + 1 => 1 + 256 * ones n

/-- A byte times ones has that byte for each digit. -/
theorem digit_ones {v : Nat} (hv : v < 256) {n i : Nat} (hi : i < n) : v * ones n / 256 ^ i % 256 = v := by
  induction n generalizing i with
  | zero => omega
  | succ n ih =>
    have hsplit : v * ones (n + 1) = v + 256 * (v * ones n) := by
      rw [ones, Nat.mul_add, Nat.mul_one, Nat.mul_left_comm]
    cases i with
    | zero =>
      rw [hsplit, pow_zero]
      omega
    | succ i =>
      have hrest : v * ones (n + 1) / 256 = v * ones n := by omega
      rw [pow_succ', ← Nat.div_div_eq_div_mul, hrest]
      exact ih (Nat.lt_of_succ_lt_succ hi)

/-- The shifts repeat the byte eight times. -/
theorem bigVal_eq (b : UInt8) : bigVal b = b.toNat * ones 8 := by
  have hlt := b.toNat_lt
  have hpair : wrap (b.toNat <<< 8) ||| b.toNat = b.toNat * 0x0101 := by
    rw [Nat.shiftLeft_eq, wrap_of_lt (by omega), lor_eq_add (i := 8) (by omega) (by omega)]
    omega
  have hquad : wrap ((b.toNat * 0x0101) <<< 16) ||| b.toNat * 0x0101 = b.toNat * 0x01010101 := by
    rw [Nat.shiftLeft_eq, wrap_of_lt (by omega), lor_eq_add (i := 16) (by omega) (by omega)]
    omega
  have hones : ones 8 = 0x0101010101010101 := rfl
  unfold bigVal
  simp only [hpair]
  rw [hquad, Nat.shiftLeft_eq, wrap_of_lt (by omega), lor_eq_add (i := 32) (by omega) (by omega), hones]
  omega

/-- Each byte of the word is the byte that is repeated. -/
theorem byte_bigVal (b : UInt8) : ∀ i < 8, UInt8.ofNat (bigVal b / 256 ^ i) = b := by
  intro i hi
  rw [← UInt8.toNat_inj, UInt8.toNat_ofNat', bigVal_eq]
  exact digit_ones b.toNat_lt hi

theorem fillBytes_filled (hdest : dest + count ≤ 2 ^ 64) {k : Nat} (hk : q * 8 + k ≤ count)
    (h : Mem.Filled m₀ dest (q * 8 + k) count b m) :
    Mem.Filled m₀ dest (q * 8) count b (fillBytes dest q b k m) := by
  induction k generalizing m with
  | zero => exact h
  | succ k ih =>
    refine ih (by omega) ?_
    rw [wrap_of_lt (by omega)]
    exact h.byteDown (by omega)

theorem fillWords_filled (hdest : dest + count ≤ 2 ^ 64) {k : Nat} (hk : 8 * k ≤ count)
    (h : Mem.Filled m₀ dest (8 * k) count b m) :
    Mem.Filled m₀ dest 0 count b (fillWords dest (bigVal b) k m) := by
  induction k generalizing m with
  | zero => exact h
  | succ k ih =>
    refine ih (by omega) ?_
    rw [wrap_of_lt (by omega)]
    exact h.wordDown (by omega) (byte_bigVal b)

theorem memset_filled (m : Mem) (ch : Int) (hdest : dest + count ≤ 2 ^ 64) :
    Mem.Filled m dest 0 count (UInt8.ofInt ch) (memset m dest ch count).2 := by
  have hstart : Mem.Filled m dest (count / 8 * 8 + count % 8) count (UInt8.ofInt ch) m := by
    rw [show count / 8 * 8 + count % 8 = count by omega]
    exact .refl m dest count _
  have hbytes := fillBytes_filled hdest (by omega) hstart
  rw [Nat.mul_comm] at hbytes
  exact fillWords_filled hdest (by omega) hbytes

/-! ## Both -/

/-- **`memset` and `memcpy`.** For a destination that does not wrap around: `memset` sets its
bytes to `(unsigned char)ch`, `memcpy` sets them to those of any source that does not overlap
it, and neither changes any other byte. -/
theorem memset_memcpy_correct (m : Mem) (ch : Int) (hdest : dest + count ≤ 2 ^ 64) :
    ((memset m dest ch count).1 = dest ∧
      (∀ i < count, (memset m dest ch count).2 (dest + i) = UInt8.ofInt ch) ∧
      ∀ v, v < dest ∨ dest + count ≤ v → (memset m dest ch count).2 v = m v) ∧
    ∀ src, src + count ≤ 2 ^ 64 → src + count ≤ dest ∨ dest + count ≤ src →
      (memcpy m dest src count).1 = dest ∧
        (∀ i < count, (memcpy m dest src count).2 (dest + i) = m (src + i)) ∧
        ∀ v, v < dest ∨ dest + count ≤ v → (memcpy m dest src count).2 v = m v := by
  have hset := memset_filled m ch hdest
  refine ⟨⟨rfl, fun i hi => hset.filled i (Nat.zero_le i) hi, fun v hv => hset.other v hv⟩, ?_⟩
  intro src hsrc hapart
  have hcopy : Mem.Moved m dest src 0 count (memcpy m dest src count).2 :=
    down_moved (hapart.imp_left fun hle => by omega) hdest hsrc
  exact ⟨rfl, fun i hi => hcopy.copied i (Nat.zero_le i) hi, fun v hv => hcopy.other v hv⟩

/-- Eleven bytes, a word and three more, at an odd address: set to -1, and copied from above. -/
theorem memset_memcpy_correct_eleven :
    (∀ i < 11, (memset (fun v => UInt8.ofNat v) 1001 (-1) 11).2 (1001 + i) = 255) ∧
      ∀ i < 11, (memcpy (fun v => UInt8.ofNat v) 1001 1012 11).2 (1001 + i) = UInt8.ofNat (1012 + i) := by
  have h := @memset_memcpy_correct 1001 11 (fun v => UInt8.ofNat v) (-1) (by decide)
  exact ⟨h.1.2.1, (h.2 1012 (by decide) (by decide)).2.1⟩

end KoalemOS.Libc
