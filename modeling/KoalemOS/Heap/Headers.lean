import KoalemOS.Heap.Blocks
import KoalemOS.Heap.Pages

/-!
# Headers in the memory of the heap

`Held A H z s`: the heap holds the headers `H` at the addresses `A`, `last_heap_entry` is `z`,
and the bytes in `K` are still what they were in `V₀`. Reading a field of an entry returns it,
and writing one updates `H` at the entry; so the code that edits the list is run on `H`.
-/

namespace KoalemOS.Heap

open KoalemOS.Library KoalemOS.Mmap KoalemOS.Paging

variable {L : Layout} {e : Nat} {F : Nat → Nat} {V V' : Mem} {s s' : Kernel} {a c : Nat}

/-- The header of the entry at `a`. -/
def header (V : Mem) (a : Nat) : Node Tag :=
  ⟨⟨V.load64 a, decide (V (a + 8) ≠ 0)⟩, V.load64 (a + 16), V.load64 (a + 24)⟩

/-- The header with another size. -/
def resized (n : Node Tag) (x : Nat) : Node Tag := n.withVal ⟨x, n.val.used⟩

/-- The header with another mark. -/
def marked (n : Node Tag) (u : Bool) : Node Tag := n.withVal ⟨n.val.size, u⟩

@[simp] theorem resized_mk (m x l n : Nat) (u : Bool) : resized ⟨⟨m, u⟩, l, n⟩ x = ⟨⟨x, u⟩, l, n⟩ := rfl

@[simp] theorem marked_mk (m l n : Nat) (u u' : Bool) : marked ⟨⟨m, u⟩, l, n⟩ u' = ⟨⟨m, u'⟩, l, n⟩ := rfl

theorem header_congr (h : ∀ v, a ≤ v → v < a + 32 → V' v = V v) : header V' a = header V a := by
  have hload : ∀ i, i ≤ 24 → V'.load64 (a + i) = V.load64 (a + i) := fun i hi =>
    Mem.loadLE_congr fun v h₁ h₂ => h v (by omega) (by omega)
  have hsize : V'.load64 a = V.load64 a := hload 0 (by decide)
  unfold header
  rw [h (a + 8) (by omega) (by omega), hsize, hload 16 (by decide), hload 24 (by decide)]

/-! ## What each store does to a header -/

theorem header_storeSize {x : Nat} (hx : x < 2 ^ 64) :
    header (V.store64 a x) a = resized (header V a) x := by
  unfold header
  rw [Mem.load64_store64_same V a hx, Mem.load64_store64_disjoint (.inr (by omega)),
    Mem.load64_store64_disjoint (.inr (by omega))]
  have hused : V.store64 a x (a + 8) = V (a + 8) := Mem.storeLE_outside (.inr le_rfl)
  rw [hused, resized_mk]

theorem header_storeUsed (u : Bool) :
    header (V.storeByte (a + 8) (if u then 1 else 0)) a =
      marked (header V a) u := by
  have hload : ∀ b, b + 8 ≤ a + 8 ∨ a + 9 ≤ b →
      (V.storeByte (a + 8) (if u then 1 else 0)).load64 b = V.load64 b := by
    intro b hb
    exact Mem.loadLE_congr fun v h₁ h₂ => Mem.storeByte_other _ (by omega)
  unfold header
  rw [hload a (by omega), hload (a + 16) (by omega), hload (a + 24) (by omega), Mem.storeByte_same]
  cases u <;> rfl

theorem header_storeLast {x : Nat} (hx : x < 2 ^ 64) :
    header (V.store64 (a + 16) x) a = (header V a).withLast x := by
  unfold header
  rw [Mem.load64_store64_same V _ hx, Mem.load64_store64_disjoint (.inl (by omega)),
    Mem.load64_store64_disjoint (.inr (by omega))]
  have hused : V.store64 (a + 16) x (a + 8) = V (a + 8) := Mem.storeLE_outside (.inl (by omega))
  rw [hused, Node.withLast_mk]

theorem header_storeNext {x : Nat} (hx : x < 2 ^ 64) :
    header (V.store64 (a + 24) x) a = (header V a).withNext x := by
  unfold header
  rw [Mem.load64_store64_same V _ hx, Mem.load64_store64_disjoint (.inl (by omega)),
    Mem.load64_store64_disjoint (.inl (by omega))]
  have hused : V.store64 (a + 24) x (a + 8) = V (a + 8) := Mem.storeLE_outside (.inl (by omega))
  rw [hused, Node.withNext_mk]

/-! ## The headers of a heap -/

/-- Where headers may be: in the heap, apart from each other, and off the bytes `K`. -/
structure Room (L : Layout) (e : Nat) (K : Nat → Prop) (A : List Nat) : Prop where
  lower : ∀ a ∈ A, L.kernelHeapStart ≤ a
  upper : ∀ a ∈ A, a + 32 ≤ e
  aligned : ∀ a ∈ A, a % 16 = 0
  apart : ∀ a ∈ A, ∀ c ∈ A, a ≠ c → a + 32 ≤ c ∨ c + 32 ≤ a
  clear : ∀ a ∈ A, ∀ v, K v → v < a ∨ a + 32 ≤ v

/-- From `s₀` on only the heap has changed: it holds the headers `H` at the addresses `A`, and
the bytes in `K` are those of `V₀`. -/
structure Held (L : Layout) (e : Nat) (F : Nat → Nat) (K : Nat → Prop) (V₀ : Mem) (s₀ : Kernel)
    (A : List Nat) (H : Nat → Node Tag) (z : Nat) (s : Kernel) : Prop where
  room : Room L e K A
  bytes : ∃ V, Pages L e F V s ∧ (∀ a ∈ A, header V a = H a) ∧ ∀ v, K v → V v = V₀ v
  lastEntry : s.lastHeapEntry = z
  step : DataStep s₀ s

variable {K : Nat → Prop} {V₀ : Mem} {s₀ : Kernel} {A : List Nat} {H : Nat → Node Tag} {z : Nat}
  {E : Stop → Prop}

namespace Held

theorem end_le (h : Held L e F K V₀ s₀ A H z s) : e ≤ 0xFFFFFF8000000000 := by
  obtain ⟨V, hpages, -⟩ := h.bytes
  exact hpages.end_le

theorem addr_lt (h : Held L e F K V₀ s₀ A H z s) (ha : a ∈ A) : a + 32 < 2 ^ 64 := by
  have hupper := h.room.upper a ha
  have hend := h.end_le
  omega

theorem wordIn (h : Held L e F K V₀ s₀ A H z s) (ha : a ∈ A) {i : Nat} (hi : i ≤ 24) (h8 : i % 8 = 0) :
    L.WordIn e (a + i) := by
  have hlower := h.room.lower a ha
  have hupper := h.room.upper a ha
  have haligned := h.room.aligned a ha
  exact ⟨by omega, by omega, by omega⟩

/-! ### Reading -/

theorem entrySize (h : Held L e F K V₀ s₀ A H z s) (ha : a ∈ A) :
    (entrySize a).Returns s (H a).val.size s := by
  obtain ⟨V, hpages, hheaders, -⟩ := h.bytes
  rw [← hheaders a ha]
  exact hpages.readWord (h.wordIn ha (i := 0) (by decide) (by decide))

theorem entryUsed (h : Held L e F K V₀ s₀ A H z s) (ha : a ∈ A) :
    (entryUsed a).Returns s (H a).val.used s := by
  obtain ⟨V, hpages, hheaders, -⟩ := h.bytes
  have hlt := h.addr_lt ha
  rw [← hheaders a ha]
  unfold Heap.entryUsed
  rw [wrap_of_lt (by omega)]
  refine (hpages.readByte ?_).bind (Outcome.returns_pure _ s)
  exact (h.wordIn ha (i := 8) (by decide) (by decide)).within (i := 0) (by decide)

theorem entryLast (h : Held L e F K V₀ s₀ A H z s) (ha : a ∈ A) :
    (entryLast a).Returns s (H a).last s := by
  obtain ⟨V, hpages, hheaders, -⟩ := h.bytes
  have hlt := h.addr_lt ha
  rw [← hheaders a ha]
  unfold Heap.entryLast
  rw [wrap_of_lt (by omega)]
  exact hpages.readWord (h.wordIn ha (by decide) (by decide))

theorem entryNext (h : Held L e F K V₀ s₀ A H z s) (ha : a ∈ A) :
    (entryNext a).Returns s (H a).next s := by
  obtain ⟨V, hpages, hheaders, -⟩ := h.bytes
  have hlt := h.addr_lt ha
  rw [← hheaders a ha]
  unfold Heap.entryNext
  rw [wrap_of_lt (by omega)]
  exact hpages.readWord (h.wordIn ha (by decide) (by decide))

/-! ### Writing -/

/-- A store to the header at `a`. -/
theorem store (h : Held L e F K V₀ s₀ A H z s) (ha : a ∈ A) {n : Node Tag → Node Tag}
    (hstore : ∀ V, Pages L e F V s → ∃ V', Pages L e F V' s' ∧ DataStep s s' ∧
      s'.lastHeapEntry = s.lastHeapEntry ∧ header V' a = n (header V a) ∧
      ∀ v, (v < a ∨ a + 32 ≤ v) → V' v = V v) :
    Held L e F K V₀ s₀ A (Function.update H a (n (H a))) z s' := by
  obtain ⟨V, hpages, hheaders, hkept⟩ := h.bytes
  obtain ⟨V', hpages', hstep, hlast, hnode, hother⟩ := hstore V hpages
  refine ⟨h.room, ⟨V', hpages', fun c hc => ?_, fun v hv => ?_⟩, hlast.trans h.lastEntry,
    h.step.trans hstep⟩
  · by_cases hca : c = a
    · subst hca
      rw [hnode, hheaders c hc, Function.update_self]
    · rw [Function.update_of_ne hca, ← hheaders c hc]
      refine header_congr fun v h₁ h₂ => hother v ?_
      have hapart := h.room.apart c hc a ha hca
      omega
  · rw [hother v (h.room.clear a ha v hv), hkept v hv]

/-- A store of a word to the header at `a`. -/
theorem storeWord (h : Held L e F K V₀ s₀ A H z s) (ha : a ∈ A) {i x : Nat} (hi : i ≤ 24)
    (h8 : i % 8 = 0) {n : Node Tag → Node Tag}
    (hn : ∀ V : Mem, header (V.store64 (a + i) x) a = n (header V a)) :
    Outcome.wp E (writeWord (a + i) x)
      (fun _ s' => Held L e F K V₀ s₀ A (Function.update H a (n (H a))) z s') s := by
  obtain ⟨V₁, hpages₁, -⟩ := h.bytes
  obtain ⟨s', hret, -⟩ := hpages₁.writeWord (h.wordIn ha hi h8) x
  refine Outcome.wp_of_returns hret (h.store ha fun V hpages => ?_)
  obtain ⟨s'', hret', hpages', hstep, hlast⟩ := hpages.writeWord (h.wordIn ha hi h8) x
  obtain ⟨-, rfl⟩ := hret.det hret'
  refine ⟨_, hpages', hstep, hlast, hn V, fun v hv => ?_⟩
  exact Mem.storeLE_outside (by omega)

theorem setSize (h : Held L e F K V₀ s₀ A H z s) (ha : a ∈ A) {x : Nat} (hx : x < 2 ^ 64) :
    Outcome.wp E (setSize a x) (fun _ s' => Held L e F K V₀ s₀ A
      (Function.update H a (resized (H a) x)) z s') s :=
  h.storeWord ha (i := 0) (n := (resized · x)) (by decide)
    (by decide) fun _ => header_storeSize hx

theorem setLast (h : Held L e F K V₀ s₀ A H z s) (ha : a ∈ A) {x : Nat} (hx : x < 2 ^ 64) :
    Outcome.wp E (setLast a x) (fun _ s' => Held L e F K V₀ s₀ A
      (Function.update H a ((H a).withLast x)) z s') s := by
  have hlt := h.addr_lt ha
  unfold Heap.setLast
  rw [wrap_of_lt (by omega)]
  exact h.storeWord ha (n := (·.withLast x)) (by decide) (by decide)
    fun _ => header_storeLast hx

theorem setNext (h : Held L e F K V₀ s₀ A H z s) (ha : a ∈ A) {x : Nat} (hx : x < 2 ^ 64) :
    Outcome.wp E (setNext a x) (fun _ s' => Held L e F K V₀ s₀ A
      (Function.update H a ((H a).withNext x)) z s') s := by
  have hlt := h.addr_lt ha
  unfold Heap.setNext
  rw [wrap_of_lt (by omega)]
  exact h.storeWord ha (n := (·.withNext x)) (by decide) (by decide)
    fun _ => header_storeNext hx

theorem setUsed (h : Held L e F K V₀ s₀ A H z s) (ha : a ∈ A) (u : Bool) :
    Outcome.wp E (setUsed a u) (fun _ s' => Held L e F K V₀ s₀ A
      (Function.update H a (marked (H a) u)) z s') s := by
  have hlt := h.addr_lt ha
  have hin : L.Within e (a + 8) :=
    (h.wordIn ha (i := 8) (by decide) (by decide)).within (i := 0) (by decide)
  unfold Heap.setUsed
  rw [wrap_of_lt (by omega)]
  obtain ⟨V₁, hpages₁, -⟩ := h.bytes
  obtain ⟨s', hret, -⟩ := hpages₁.writeByte hin (if u then 1 else 0)
  refine Outcome.wp_of_returns hret (h.store ha (n := (marked · u))
    fun V hpages => ?_)
  obtain ⟨s'', hret', hpages', hstep, hlast⟩ := hpages.writeByte hin (if u then 1 else 0)
  obtain ⟨-, rfl⟩ := hret.det hret'
  refine ⟨_, hpages', hstep, hlast, header_storeUsed u, fun v hv => ?_⟩
  exact Mem.storeByte_other _ (by omega)

theorem setLastHeapEntry (h : Held L e F K V₀ s₀ A H z s) (x : Nat) :
    Outcome.wp E (setLastHeapEntry x) (fun _ s' => Held L e F K V₀ s₀ A H x s') s := by
  obtain ⟨V, hpages, hheaders, hkept⟩ := h.bytes
  refine Outcome.wp_of_returns (Outcome.returns_modify _ s) ⟨h.room, ⟨V, ?_, hheaders, hkept⟩, rfl, ?_⟩
  · exact ⟨hpages.tables, hpages.mapped, hpages.inj, hpages.notTable, hpages.bytes, hpages.noLarge,
      hpages.endAligned, hpages.start_le, hpages.end_le⟩
  · obtain ⟨hsame, hrows⟩ := h.step
    exact ⟨by rw [hsame], hrows⟩

/-- A whole header. -/
theorem writeEntry (h : Held L e F K V₀ s₀ A H z s) (ha : a ∈ A) {size last next : Nat} {used : Bool}
    (hsize : size < 2 ^ 64) (hlast : last < 2 ^ 64) (hnext : next < 2 ^ 64) :
    Outcome.wp E (writeEntry a size used last next) (fun _ s' => Held L e F K V₀ s₀ A
      (Function.update H a ⟨⟨size, used⟩, last, next⟩) z s') s := by
  refine Outcome.wp_bind (Outcome.wp_mono (h.setSize ha hsize) fun _ s₁ h₁ => ?_)
  refine Outcome.wp_bind (Outcome.wp_mono (h₁.setUsed ha used) fun _ s₂ h₂ => ?_)
  refine Outcome.wp_bind (Outcome.wp_mono (h₂.setLast ha hlast) fun _ s₃ h₃ => ?_)
  refine Outcome.wp_mono (h₃.setNext ha hnext) fun _ s₄ h₄ => ?_
  simp only [Function.update_self, Function.update_idem] at h₄
  exact h₄

/-! ### Other sets of headers -/

/-- Some of the headers. -/
theorem mono {A' : List Nat} (h : Held L e F K V₀ s₀ A H z s) (hsub : ∀ a ∈ A', a ∈ A) :
    Held L e F K V₀ s₀ A' H z s := by
  obtain ⟨V, hpages, hheaders, hkept⟩ := h.bytes
  have hroom := h.room
  refine ⟨⟨fun a ha => hroom.lower a (hsub a ha), fun a ha => hroom.upper a (hsub a ha),
    fun a ha => hroom.aligned a (hsub a ha),
    fun a ha c hc => hroom.apart a (hsub a ha) c (hsub c hc),
    fun a ha => hroom.clear a (hsub a ha)⟩, ⟨V, hpages, fun a ha => hheaders a (hsub a ha), hkept⟩,
    h.lastEntry, h.step⟩

/-- Room for one more header: it holds what the memory there holds. -/
theorem grow {A' : List Nat} (h : Held L e F K V₀ s₀ A H z s) (hroom : Room L e K A')
    (hsub : ∀ c ∈ A', c = a ∨ c ∈ A) (hnew : a ∉ A) :
    ∃ n, Held L e F K V₀ s₀ A' (Function.update H a n) z s := by
  obtain ⟨V, hpages, hheaders, hkept⟩ := h.bytes
  refine ⟨header V a, hroom, ⟨V, hpages, fun c hc => ?_, hkept⟩, h.lastEntry, h.step⟩
  rcases hsub c hc with rfl | hc'
  · rw [Function.update_self]
  · have hne : c ≠ a := fun heq => hnew (heq ▸ hc')
    rw [Function.update_of_ne hne, hheaders c hc']

end Held

end KoalemOS.Heap
