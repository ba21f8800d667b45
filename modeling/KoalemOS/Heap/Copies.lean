import KoalemOS.Heap.Pages
import KoalemOS.Libc.Memcpy

/-!
# `memcpy` and `memmove` in the heap

Both copy words and single bytes, downwards or upwards, as the functions of `src/libc/string.c`
do on plain memory (`Pages.memcpy_libc`, `Pages.memmove_libc`). In the memory of the heap they
write the bytes of the source to the destination and change nothing else (`Pages.memcpy`,
`Pages.memmove`).
-/

namespace KoalemOS.Heap

open KoalemOS.Library KoalemOS.Mmap KoalemOS.Paging

variable {L : Layout} {e : Nat} {F : Nat → Nat} {V V' : Mem} {s s' : Kernel} {dest src lo hi : Nat}
  {E : Stop → Prop}

/-- `count` bytes of the heap, from a word on. -/
structure Layout.RangeIn (L : Layout) (e a count : Nat) : Prop where
  lower : L.kernelHeapStart ≤ a
  upper : a + count ≤ e
  aligned : a % 8 = 0

theorem Layout.RangeIn.wordIn {a i count : Nat} (h : L.RangeIn e a count) (hi : 8 * i + 8 ≤ count) :
    L.WordIn e (a + 8 * i) := by
  obtain ⟨hlower, hupper, haligned⟩ := h
  exact ⟨by omega, by omega, by omega⟩

theorem Layout.RangeIn.within {a i count : Nat} (h : L.RangeIn e a count) (hi : i < count) :
    L.Within e (a + i) := by
  obtain ⟨hlower, hupper, -⟩ := h
  exact ⟨by omega, by omega⟩

/-- From `s` on, the memory of the heap has become `V'`. -/
structure Stored (L : Layout) (e : Nat) (F : Nat → Nat) (s : Kernel) (V' : Mem) (s' : Kernel) : Prop where
  pages : Pages L e F V' s'
  step : DataStep s s'
  lastEntry : s'.lastHeapEntry = s.lastHeapEntry

/-! ## One step -/

/-- A word that is copied. -/
theorem Stored.copyWord {i count : Nat} (h : Stored L e F s V s') (hdest : L.RangeIn e dest count)
    (hsrc : L.RangeIn e src count) (hle : 8 * i + 8 ≤ count) :
    Outcome.wp E (copyWord dest src i) (fun _ t => Stored L e F s
      (V.store64 (wrap (dest + 8 * i)) (V.load64 (wrap (src + 8 * i)))) t) s' := by
  obtain ⟨hpages, hstep, hlast⟩ := h
  have hend := hpages.end_le
  have hdestin := hdest.wordIn hle
  have hsrcin := hsrc.wordIn hle
  have hdlt := hdestin.upper
  have hslt := hsrcin.upper
  unfold Heap.copyWord
  rw [wrap_of_lt (show src + 8 * i < 2 ^ 64 by omega), wrap_of_lt (show dest + 8 * i < 2 ^ 64 by omega)]
  refine Outcome.wp_bind_returns (hpages.readWord hsrcin) ?_
  obtain ⟨t, hret, hpages', hstep', hlast'⟩ := hpages.writeWord hdestin (V.load64 (src + 8 * i))
  exact Outcome.wp_of_returns hret ⟨hpages', hstep.trans hstep', hlast'.trans hlast⟩

/-- A byte that is copied. -/
theorem Stored.copyByte {i count : Nat} (h : Stored L e F s V s') (hdest : L.RangeIn e dest count)
    (hsrc : L.RangeIn e src count) (hlt : i < count) :
    Outcome.wp E (copyByte dest src i) (fun _ t => Stored L e F s
      (V.storeByte (wrap (dest + i)) (V (wrap (src + i)))) t) s' := by
  obtain ⟨hpages, hstep, hlast⟩ := h
  have hend := hpages.end_le
  have hdestin := hdest.within hlt
  have hsrcin := hsrc.within hlt
  have hdlt := hdestin.upper
  have hslt := hsrcin.upper
  unfold Heap.copyByte
  rw [wrap_of_lt (show src + i < 2 ^ 64 by omega), wrap_of_lt (show dest + i < 2 ^ 64 by omega)]
  refine Outcome.wp_bind_returns (hpages.readByte hsrcin) ?_
  obtain ⟨t, hret, hpages', hstep', hlast'⟩ := hpages.writeByte hdestin (V (src + i))
  exact Outcome.wp_of_returns hret ⟨hpages', hstep.trans hstep', hlast'.trans hlast⟩

/-! ## The loops -/

section Loops

variable {q r count : Nat}

/-- A loop whose rounds do what is left of `f` does it all: `f i` is what is left after `i` rounds. -/
theorem Stored.loop {body : Nat → KernelM Unit} {f : Nat → Mem → Mem} (h : Stored L e F s V s')
    (hend : ∀ V', f r V' = V')
    (hround : ∀ i t V', i < r → Stored L e F s V' t →
      Outcome.wp E (body i) (fun _ u => ∃ V'', Stored L e F s V'' u ∧ f (i + 1) V'' = f i V') t) :
    Outcome.wp E (Outcome.loop 0 r body) (fun _ t => Stored L e F s (f 0 V) t) s' := by
  have hloop : Outcome.wp E (Outcome.loop 0 r body) _ s' :=
    Outcome.wp_loop (fun i t => ∃ V', Stored L e F s V' t ∧ f i V' = f 0 V) 0 r ?_ ⟨V, h, rfl⟩
  · refine Outcome.wp_mono hloop fun _ t ht => ?_
    obtain ⟨V', hstored, heq⟩ := ht
    rw [Nat.zero_add, hend] at heq
    exact heq ▸ hstored
  · rintro i t - hi ⟨V', hstored, heq⟩
    refine Outcome.wp_mono (hround i t V' (by omega) hstored) fun _ u hu => ?_
    obtain ⟨V'', hstored', hleft⟩ := hu
    exact ⟨V'', hstored', hleft.trans heq⟩

theorem Stored.bytesDown (h : Stored L e F s V s') (hdest : L.RangeIn e dest count) (hsrc : L.RangeIn e src count)
    (hle : q * 8 + r ≤ count) :
    Outcome.wp E (Outcome.loop 0 r fun i => Heap.copyByte dest src (q * 8 + (r - 1 - i)))
      (fun _ t => Stored L e F s (Libc.bytesDown dest src q r V) t) s' := by
  refine Stored.loop (f := fun i => Libc.bytesDown dest src q (r - i)) h (fun V' => ?_) fun i t V' hi ht => ?_
  · rw [Nat.sub_self, Libc.bytesDown]
  · refine Outcome.wp_mono (ht.copyByte hdest hsrc (by omega)) fun _ u hu => ⟨_, hu, ?_⟩
    rw [show r - i = r - 1 - i + 1 by omega, Libc.bytesDown, show r - (i + 1) = r - 1 - i by omega]

theorem Stored.wordsDown (h : Stored L e F s V s') (hdest : L.RangeIn e dest count) (hsrc : L.RangeIn e src count)
    (hle : 8 * q ≤ count) :
    Outcome.wp E (Outcome.loop 0 q fun i => Heap.copyWord dest src (q - 1 - i))
      (fun _ t => Stored L e F s (Libc.wordsDown dest src q V) t) s' := by
  refine Stored.loop (f := fun i => Libc.wordsDown dest src (q - i)) h (fun V' => ?_) fun i t V' hi ht => ?_
  · rw [Nat.sub_self, Libc.wordsDown]
  · refine Outcome.wp_mono (ht.copyWord hdest hsrc (by omega)) fun _ u hu => ⟨_, hu, ?_⟩
    rw [show q - i = q - 1 - i + 1 by omega, Libc.wordsDown, show q - (i + 1) = q - 1 - i by omega]

theorem Stored.wordsUp (h : Stored L e F s V s') (hdest : L.RangeIn e dest count) (hsrc : L.RangeIn e src count)
    (hle : 8 * q ≤ count) :
    Outcome.wp E (Outcome.loop 0 q fun i => Heap.copyWord dest src i)
      (fun _ t => Stored L e F s (Libc.wordsUp dest src 0 q V) t) s' := by
  refine Stored.loop (f := fun i => Libc.wordsUp dest src i (q - i)) h (fun V' => ?_) fun i t V' hi ht => ?_
  · rw [Nat.sub_self, Libc.wordsUp]
  · refine Outcome.wp_mono (ht.copyWord hdest hsrc (by omega)) fun _ u hu => ⟨_, hu, ?_⟩
    rw [show q - i = q - (i + 1) + 1 by omega, Libc.wordsUp]

theorem Stored.bytesUp (h : Stored L e F s V s') (hdest : L.RangeIn e dest count) (hsrc : L.RangeIn e src count)
    (hle : q * 8 + r ≤ count) :
    Outcome.wp E (Outcome.loop 0 r fun i => Heap.copyByte dest src (q * 8 + i))
      (fun _ t => Stored L e F s (Libc.bytesUp dest src q 0 r V) t) s' := by
  refine Stored.loop (f := fun i => Libc.bytesUp dest src q i (r - i)) h (fun V' => ?_) fun i t V' hi ht => ?_
  · rw [Nat.sub_self, Libc.bytesUp]
  · refine Outcome.wp_mono (ht.copyByte hdest hsrc (by omega)) fun _ u hu => ⟨_, hu, ?_⟩
    rw [show r - i = r - (i + 1) + 1 by omega, Libc.bytesUp]

end Loops

/-! ## `memcpy` and `memmove` -/

/-- The `memcpy` that `krealloc` calls is that of the library. -/
theorem Pages.memcpy_libc {count : Nat} (h : Pages L e F V s) (hdest : L.RangeIn e dest count)
    (hsrc : L.RangeIn e src count) :
    Outcome.wp E (memcpy dest src count) (fun _ t => Stored L e F s (Libc.memcpy V dest src count).2 t) s := by
  have hstart : Stored L e F s V s := ⟨h, DataStep.refl s, rfl⟩
  refine Outcome.wp_bind (Outcome.wp_mono (hstart.bytesDown hdest hsrc (by omega)) fun _ t ht => ?_)
  exact ht.wordsDown hdest hsrc (by omega)

/-- So is the `memmove`. -/
theorem Pages.memmove_libc {count : Nat} (h : Pages L e F V s) (hdest : L.RangeIn e dest count)
    (hsrc : L.RangeIn e src count) :
    Outcome.wp E (memmove dest src count) (fun _ t => Stored L e F s (Libc.memmove V dest src count).2 t) s := by
  have hstart : Stored L e F s V s := ⟨h, DataStep.refl s, rfl⟩
  unfold Heap.memmove Libc.memmove
  split_ifs with hgt hlt
  · exact h.memcpy_libc hdest hsrc
  · refine Outcome.wp_bind (Outcome.wp_mono (hstart.wordsUp hdest hsrc (by omega)) fun _ t ht => ?_)
    exact ht.bytesUp hdest hsrc (by omega)
  · exact Outcome.wp_of_returns (Outcome.returns_pure _ s) hstart

/-- From `s` on, `count` bytes have been copied. -/
structure Copied (L : Layout) (e : Nat) (F : Nat → Nat) (V : Mem) (s : Kernel) (dest src count : Nat)
    (s' : Kernel) : Prop where
  bytes : ∃ V', Pages L e F V' s' ∧ Mem.Moved V dest src 0 count V'
  step : DataStep s s'
  lastEntry : s'.lastHeapEntry = s.lastHeapEntry

theorem Stored.copied {count : Nat} (h : Stored L e F s V' s') (hmoved : Mem.Moved V dest src 0 count V') :
    Copied L e F V s dest src count s' :=
  ⟨⟨V', h.pages, hmoved⟩, h.step, h.lastEntry⟩

/-- **`memcpy`**, from the last byte down. -/
theorem Pages.memcpy {count : Nat} (h : Pages L e F V s) (hdest : L.RangeIn e dest count)
    (hsrc : L.RangeIn e src count) (hsafe : src ≤ dest ∨ dest + count ≤ src) :
    Outcome.wp E (memcpy dest src count) (fun _ t => Copied L e F V s dest src count t) s := by
  have hend := h.end_le
  have hdlt := hdest.upper
  have hslt := hsrc.upper
  have hmoved : Mem.Moved V dest src 0 count (Libc.memcpy V dest src count).2 :=
    Libc.down_moved hsafe (show dest + count ≤ 2 ^ 64 by omega) (show src + count ≤ 2 ^ 64 by omega)
  exact Outcome.wp_mono (h.memcpy_libc hdest hsrc) fun _ t ht => ht.copied hmoved

/-- **`memmove`**: the two ranges may overlap. -/
theorem Pages.memmove {count : Nat} (h : Pages L e F V s) (hdest : L.RangeIn e dest count)
    (hsrc : L.RangeIn e src count) :
    Outcome.wp E (memmove dest src count) (fun _ t => Copied L e F V s dest src count t) s := by
  have hend := h.end_le
  have hdlt := hdest.upper
  have hslt := hsrc.upper
  have hmoved := Libc.memmove_moved V (show dest + count ≤ 2 ^ 64 by omega) (show src + count ≤ 2 ^ 64 by omega)
  exact Outcome.wp_mono (h.memmove_libc hdest hsrc) fun _ t ht => ht.copied hmoved.2

end KoalemOS.Heap
