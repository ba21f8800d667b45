import KoalemOS.Library.ByteCopy
import KoalemOS.Library.Words

/-!
# `memmove` (`src/libc/string.c`)

The bytes behind the last word and the words are copied in loops of their own: downwards, from
the end, when the destination is above the source, and upwards when it is below. A byte or a
word is read before anything it overlaps is written (`Mem.Moved`).
-/

namespace KoalemOS.Libc

open KoalemOS.Library

variable {m m₀ : Mem} {dest src q lo count : Nat}

/-! ## The loops -/

/-- `while(byte_count)`, behind `q` words. -/
def bytesDown (dest src q : Nat) : Nat → Mem → Mem
  | 0, m => m
  | k + 1, m => bytesDown dest src q k
      (m.storeByte (wrap (dest + (q * 8 + k))) (m (wrap (src + (q * 8 + k)))))

/-- `while(qword_count)` -/
def wordsDown (dest src : Nat) : Nat → Mem → Mem
  | 0, m => m
  | k + 1, m => wordsDown dest src k
      (m.store64 (wrap (dest + 8 * k)) (m.load64 (wrap (src + 8 * k))))

/-- The loop over the words from word `i`, with `k` words to go. -/
def wordsUp (dest src i : Nat) : Nat → Mem → Mem
  | 0, m => m
  | k + 1, m => wordsUp dest src (i + 1) k
      (m.store64 (wrap (dest + 8 * i)) (m.load64 (wrap (src + 8 * i))))

/-- The loop over the bytes behind `q` words from byte `i`, with `k` bytes to go. -/
def bytesUp (dest src q i : Nat) : Nat → Mem → Mem
  | 0, m => m
  | k + 1, m => bytesUp dest src q (i + 1) k
      (m.storeByte (wrap (dest + (q * 8 + i))) (m (wrap (src + (q * 8 + i)))))

/-- `memmove`: the pointer it returns and the memory afterwards. -/
def memmove (m : Mem) (dest src count : Nat) : Nat × Mem :=
  if dest > src then
    (dest, wordsDown dest src (count / 8) (bytesDown dest src (count / 8) (count % 8) m))
  else if src > dest then
    (dest, bytesUp dest src (count / 8) 0 (count % 8) (wordsUp dest src 0 (count / 8) m))
  else (dest, m)

/-! ## Downwards -/

theorem bytesDown_moved (hsafe : src ≤ dest ∨ dest + count ≤ src) (hdest : dest + count ≤ 2 ^ 64)
    (hsrc : src + count ≤ 2 ^ 64) {k : Nat} (hk : q * 8 + k ≤ count)
    (h : Mem.Moved m₀ dest src (q * 8 + k) count m) :
    Mem.Moved m₀ dest src (q * 8) count (bytesDown dest src q k m) := by
  induction k generalizing m with
  | zero => exact h
  | succ k ih =>
    refine ih (by omega) ?_
    rw [wrap_of_lt (by omega), wrap_of_lt (by omega)]
    exact h.byteDown (by omega) hsafe

theorem wordsDown_moved (hsafe : src ≤ dest ∨ dest + count ≤ src) (hdest : dest + count ≤ 2 ^ 64)
    (hsrc : src + count ≤ 2 ^ 64) {k : Nat} (hk : 8 * k ≤ count)
    (h : Mem.Moved m₀ dest src (8 * k) count m) :
    Mem.Moved m₀ dest src 0 count (wordsDown dest src k m) := by
  induction k generalizing m with
  | zero => exact h
  | succ k ih =>
    refine ih (by omega) ?_
    rw [wrap_of_lt (by omega), wrap_of_lt (by omega)]
    exact h.wordDown (by omega) hsafe

/-- The two loops downwards copy everything. -/
theorem down_moved (hsafe : src ≤ dest ∨ dest + count ≤ src) (hdest : dest + count ≤ 2 ^ 64)
    (hsrc : src + count ≤ 2 ^ 64) :
    Mem.Moved m dest src 0 count
      (wordsDown dest src (count / 8) (bytesDown dest src (count / 8) (count % 8) m)) := by
  have hstart : Mem.Moved m dest src (count / 8 * 8 + count % 8) count m := by
    rw [show count / 8 * 8 + count % 8 = count by omega]
    exact .refl m dest src count
  have hbytes := bytesDown_moved hsafe hdest hsrc (by omega) hstart
  rw [Nat.mul_comm] at hbytes
  exact wordsDown_moved hsafe hdest hsrc (by omega) hbytes

/-! ## Upwards -/

theorem wordsUp_moved (hle : dest ≤ src) {i k : Nat} (hlt : src + 8 * (i + k) ≤ 2 ^ 64)
    (h : Mem.Moved m₀ dest src 0 (8 * i) m) :
    Mem.Moved m₀ dest src 0 (8 * (i + k)) (wordsUp dest src i k m) := by
  induction k generalizing m i with
  | zero => exact h
  | succ k ih =>
    have hnext := @ih (m.store64 (dest + 8 * i) (m.load64 (src + 8 * i))) (i + 1) (by omega)
      (h.wordUp (by omega) (.inl hle))
    rw [wordsUp, wrap_of_lt (by omega), wrap_of_lt (by omega)]
    rwa [show i + 1 + k = i + (k + 1) by omega] at hnext

theorem bytesUp_moved (hle : dest ≤ src) {i k : Nat} (hlt : src + (q * 8 + (i + k)) ≤ 2 ^ 64)
    (h : Mem.Moved m₀ dest src 0 (q * 8 + i) m) :
    Mem.Moved m₀ dest src 0 (q * 8 + (i + k)) (bytesUp dest src q i k m) := by
  induction k generalizing m i with
  | zero => exact h
  | succ k ih =>
    have hnext := @ih (m.storeByte (dest + (q * 8 + i)) (m (src + (q * 8 + i)))) (i + 1) (by omega)
      (h.byteUp (by omega) (.inl hle))
    rw [bytesUp, wrap_of_lt (by omega), wrap_of_lt (by omega)]
    rwa [show i + 1 + k = i + (k + 1) by omega] at hnext

/-! ## `memmove` -/

theorem memmove_moved (m : Mem) (hdest : dest + count ≤ 2 ^ 64) (hsrc : src + count ≤ 2 ^ 64) :
    (memmove m dest src count).1 = dest ∧ Mem.Moved m dest src 0 count (memmove m dest src count).2 := by
  unfold memmove
  split_ifs with hgt hlt
  · -- the whole copy is above what is still to be read
    exact ⟨rfl, down_moved (.inl (Nat.le_of_lt hgt)) hdest hsrc⟩
  · have hwords := wordsUp_moved (i := 0) (k := count / 8) (Nat.le_of_lt hlt) (by omega)
      (.refl m dest src 0)
    rw [Nat.zero_add, Nat.mul_comm] at hwords
    have hbytes := bytesUp_moved (i := 0) (k := count % 8) (Nat.le_of_lt hlt) (by omega) hwords
    rw [show count / 8 * 8 + (0 + count % 8) = count by omega] at hbytes
    exact ⟨rfl, hbytes⟩
  · obtain rfl : src = dest := by omega
    exact ⟨rfl, fun _ _ _ => rfl, fun _ _ => rfl⟩

/-- **`memmove`.** Whatever the overlap of two ranges that do not wrap around: the destination
holds the bytes the source held, no other byte has changed, and `dest` is returned. -/
theorem memmove_correct (m : Mem) (hdest : dest + count ≤ 2 ^ 64) (hsrc : src + count ≤ 2 ^ 64) :
    (memmove m dest src count).1 = dest ∧
      (∀ i < count, (memmove m dest src count).2 (dest + i) = m (src + i)) ∧
      ∀ v, v < dest ∨ dest + count ≤ v → (memmove m dest src count).2 v = m v := by
  obtain ⟨hret, hmoved⟩ := memmove_moved m hdest hsrc
  exact ⟨hret, fun i hi => hmoved.copied i (Nat.zero_le i) hi, fun v hv => hmoved.other v hv⟩

/-- Ten bytes are moved up by three: a word and two bytes, each over a part of the source. -/
theorem memmove_correct_overlap :
    (memmove (fun v => UInt8.ofNat v) 103 100 10).1 = 103 ∧
      (∀ i < 10, (memmove (fun v => UInt8.ofNat v) 103 100 10).2 (103 + i) = UInt8.ofNat (100 + i)) ∧
      ∀ v, v < 103 ∨ 103 + 10 ≤ v →
        (memmove (fun v => UInt8.ofNat v) 103 100 10).2 v = UInt8.ofNat v :=
  memmove_correct (fun v => UInt8.ofNat v) (by decide) (by decide)

end KoalemOS.Libc
