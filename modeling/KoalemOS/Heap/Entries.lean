import KoalemOS.Heap.Headers

/-!
# The list of entries

`Listed bs s`: the entries of the heap are the blocks `bs`, linked in this order. The parts
of the allocator that edit the list are run here, each from a list to the list it leaves.
-/

namespace KoalemOS.Heap

open KoalemOS.Library KoalemOS.Library.LinkedList KoalemOS.Mmap KoalemOS.Paging

variable {L : Layout} {e : Nat} {F : Nat → Nat} {K : Nat → Prop} {V₀ : Mem} {s₀ s : Kernel}
  {A : List Nat} {H : Nat → Node Tag} {z a : Nat} {b c : Block} {bs xs ys : List Block}
  {E : Stop → Prop}

/-- The entries `bs` are linked, the first to `last` and the last to nothing. -/
abbrev Links (H : Nat → Node Tag) (last : Nat) (bs : List Block) : Prop :=
  Chain Block.addr Block.tag H last bs 0

/-- The addresses of entries. -/
abbrev addrs (bs : List Block) : List Nat := bs.map Block.addr

/-- From `s₀` on only the heap has changed: its entries are `bs`, and the bytes in `K` are
those of `V₀`. -/
structure Listed (L : Layout) (e : Nat) (F : Nat → Nat) (K : Nat → Prop) (V₀ : Mem) (s₀ : Kernel)
    (bs : List Block) (s : Kernel) : Prop where
  held : ∃ H, Held L e F K V₀ s₀ (addrs bs) H (lastOr Block.addr 0 bs) s ∧ Links H 0 bs
  spaced : Spaced L.kernelHeapStart bs e

/-! ## Room for headers -/

/-- The kept bytes are off the headers. -/
def Clear (K : Nat → Prop) (bs : List Block) : Prop :=
  ∀ b ∈ bs, ∀ v, K v → v < b.addr ∨ b.memory ≤ v

theorem Room.of_spaced (hspaced : Spaced L.kernelHeapStart bs e) (haligned : Aligned bs)
    (hclear : Clear K bs) : Room L e K (addrs bs) := by
  refine ⟨fun a ha => ?_, fun a ha => ?_, fun a ha => ?_, fun a ha c hc hne => ?_, fun a ha => ?_⟩ <;>
    obtain ⟨b, hb, rfl⟩ := List.mem_map.mp ha
  · exact (hspaced.bounds hb).1
  · exact (hspaced.bounds hb).2
  · exact haligned b hb
  · obtain ⟨d, hd, rfl⟩ := List.mem_map.mp hc
    exact hspaced.apart hb hd hne
  · exact hclear b hb

theorem Listed.aligned (h : Listed L e F K V₀ s₀ bs s) : Aligned bs := by
  obtain ⟨H, hheld, -⟩ := h.held
  exact fun b hb => hheld.room.aligned b.addr (List.mem_map_of_mem hb)

theorem Listed.clear (h : Listed L e F K V₀ s₀ bs s) : Clear K bs := by
  obtain ⟨H, hheld, -⟩ := h.held
  exact fun b hb => hheld.room.clear b.addr (List.mem_map_of_mem hb)

theorem Listed.addr_lt (h : Listed L e F K V₀ s₀ bs s) (hb : b ∈ bs) : b.addr + 32 < 2 ^ 64 := by
  obtain ⟨H, hheld, -⟩ := h.held
  exact hheld.addr_lt (List.mem_map_of_mem hb)

theorem Held.ne_zero (h : Held L e F K V₀ s₀ A H z s) (ha : a ∈ A) : a ≠ 0 := by
  have hlower := h.room.lower a ha
  have hstart := L.lower
  have hbuf := L.buf_below
  omega

/-! ## Links -/

/-- `if(entry->next) entry->next->last = x; else last_heap_entry = x;` -/
theorem Held.linkBack (h : Held L e F K V₀ s₀ A H (lastOr Block.addr z ys) s) (ha : a ∈ A)
    (hnext : (H a).next = headOr Block.addr 0 ys) (hlinks : Links H z ys)
    (hmem : ∀ y ∈ ys, y.addr ∈ A) (hnodup : (addrs ys).Nodup) {x : Nat} (hx : x < 2 ^ 64) :
    Outcome.wp E (linkBack a x) (fun _ s' => ∃ H', Held L e F K V₀ s₀ A H' (lastOr Block.addr x ys) s' ∧
      Links H' x ys ∧ ∀ d, (∀ y ∈ ys, d ≠ y.addr) → H' d = H d) s := by
  refine Outcome.wp_bind_returns (h.entryNext ha) ?_
  rw [hnext]
  cases ys with
  | nil =>
    rw [if_neg (by simp)]
    exact Outcome.wp_mono (h.setLastHeapEntry x) fun _ s' h' => ⟨H, h', trivial, fun _ _ => rfl⟩
  | cons y ys =>
    have hy : y.addr ∈ A := hmem y List.mem_cons_self
    rw [headOr_cons, if_pos (h.ne_zero hy)]
    refine Outcome.wp_mono (h.setLast hy hx) fun _ s' h' => ⟨_, h', ?_, fun d hd => ?_⟩
    · refine Chain.relinkLast hlinks (fun b cs heq => ?_) fun b cs heq c hc => ?_ <;>
        obtain ⟨rfl, rfl⟩ := List.cons.inj heq
      · rw [Function.update_self]
      · rw [Function.update_of_ne]
        rintro heq'
        exact (List.nodup_cons.mp hnodup).1 (heq' ▸ List.mem_map_of_mem hc)
    · exact Function.update_of_ne (hd y List.mem_cons_self) _ _

theorem memoryOf_addr (h : b.addr + 32 < 2 ^ 64) : memoryOf b.addr = b.memory := wrap_of_lt h

/-- The address of the entry behind others is a word. -/
theorem Listed.next_lt (h : Listed L e F K V₀ s₀ (xs ++ ys) s) : headOr Block.addr 0 ys < 2 ^ 64 := by
  by_cases hys : ys = []
  · subst hys
    decide
  · obtain ⟨y, hy, heq⟩ : ∃ y ∈ ys, headOr Block.addr 0 ys = y.addr := headOr_mem hys
    have hlt := h.addr_lt (List.mem_append_right xs hy)
    omega

/-- A list around an entry. -/
theorem Listed.of_parts (hheld : Held L e F K V₀ s₀ A H (lastOr Block.addr b.addr ys) s)
    (hsub : ∀ a ∈ addrs (xs ++ b :: ys), a ∈ A)
    (hxs : Chain Block.addr Block.tag H 0 xs b.addr)
    (hb : H b.addr = ⟨b.tag, lastOr Block.addr 0 xs, headOr Block.addr 0 ys⟩) (hys : Links H b.addr ys)
    (hspaced : Spaced L.kernelHeapStart (xs ++ b :: ys) e) :
    Listed L e F K V₀ s₀ (xs ++ b :: ys) s :=
  ⟨⟨H, by simpa using hheld.mono hsub, chain_append.mpr ⟨hxs, hb, hys⟩⟩, hspaced⟩

/-! ## Single fields -/

/-- An entry with another size or mark. -/
theorem Listed.retag (h : Listed L e F K V₀ s₀ (xs ++ b :: ys) s) {m : KernelM Unit} {t : Block}
    (haddr : t.addr = b.addr) {n : Node Tag → Node Tag}
    (hn : ∀ l x, n ⟨b.tag, l, x⟩ = ⟨t.tag, l, x⟩)
    (hm : ∀ A H z s, Held L e F K V₀ s₀ A H z s → b.addr ∈ A →
      Outcome.wp E m (fun _ s' => Held L e F K V₀ s₀ A
        (Function.update H b.addr (n (H b.addr))) z s') s) :
    Outcome.wp E m (fun _ s' => Listed L e F K V₀ s₀ (xs ++ t :: ys) s') s := by
  obtain ⟨H, hheld, hlinks⟩ := h.held
  obtain ⟨hxb, hyb⟩ := h.spaced.ne_around
  have hnode := hlinks.node
  obtain ⟨hxs, -, hys⟩ := chain_append.mp hlinks
  refine Outcome.wp_mono (hm _ _ _ _ hheld (by simp)) fun _ s' h' => ?_
  rw [hnode, hn] at h'
  refine ⟨⟨Function.update H b.addr ⟨t.tag, lastOr Block.addr 0 xs, headOr Block.addr 0 ys⟩,
    by simpa [haddr] using h', chain_append.mpr ⟨?_, ?_, ?_⟩⟩, ?_⟩
  · rw [headOr_cons] at hxs ⊢
    rw [haddr]
    exact hxs.congr fun x hx => Function.update_of_ne (hxb x hx) _ _
  · rw [haddr, Function.update_self]
  · rw [haddr]
    exact hys.congr fun y hy => Function.update_of_ne (hyb y hy) _ _
  · have hspaced := Placed.append_cons_iff.mp h.spaced
    exact Placed.append_cons_iff.mpr (by simpa [Block.memory, haddr] using hspaced)

theorem Listed.setUsed (h : Listed L e F K V₀ s₀ (xs ++ b :: ys) s) (u : Bool) :
    Outcome.wp E (setUsed b.addr u)
      (fun _ s' => Listed L e F K V₀ s₀ (xs ++ ⟨b.addr, b.size, u⟩ :: ys) s') s :=
  h.retag (n := (marked · u)) rfl (fun _ _ => rfl) fun _ _ _ _ hheld hb => hheld.setUsed hb u

theorem Listed.setSize (h : Listed L e F K V₀ s₀ (xs ++ b :: ys) s) {x : Nat} (hx : x < 2 ^ 64) :
    Outcome.wp E (setSize b.addr x)
      (fun _ s' => Listed L e F K V₀ s₀ (xs ++ ⟨b.addr, x, b.used⟩ :: ys) s') s :=
  h.retag (n := (resized · x)) rfl (fun _ _ => rfl) fun _ _ _ _ hheld hb => hheld.setSize hb hx

theorem Listed.entrySize (h : Listed L e F K V₀ s₀ (xs ++ b :: ys) s) :
    (entrySize b.addr).Returns s b.size s := by
  obtain ⟨H, hheld, hlinks⟩ := h.held
  have hret := hheld.entrySize (a := b.addr) (by simp)
  rwa [hlinks.node] at hret

theorem Listed.entryUsed (h : Listed L e F K V₀ s₀ (xs ++ b :: ys) s) :
    (entryUsed b.addr).Returns s b.used s := by
  obtain ⟨H, hheld, hlinks⟩ := h.held
  have hret := hheld.entryUsed (a := b.addr) (by simp)
  rwa [hlinks.node] at hret

theorem Listed.entryLast (h : Listed L e F K V₀ s₀ (xs ++ b :: ys) s) :
    (entryLast b.addr).Returns s (lastOr Block.addr 0 xs) s := by
  obtain ⟨H, hheld, hlinks⟩ := h.held
  have hret := hheld.entryLast (a := b.addr) (by simp)
  rwa [hlinks.node] at hret

theorem Listed.entryNext (h : Listed L e F K V₀ s₀ (xs ++ b :: ys) s) :
    (entryNext b.addr).Returns s (headOr Block.addr 0 ys) s := by
  obtain ⟨H, hheld, hlinks⟩ := h.held
  have hret := hheld.entryNext (a := b.addr) (by simp)
  rwa [hlinks.node] at hret

/-! ## Splitting an entry -/

/-- Room for a header behind the first `size` bytes of an entry. -/
theorem room_between (hspaced : Spaced L.kernelHeapStart (xs ++ b :: ys) e) (haligned : Aligned (xs ++ b :: ys))
    (hclear : Clear K (xs ++ b :: ys)) {size : Nat} {u w : Bool} {n m : Nat}
    (hsize : size % 16 = 0) (hfit : b.memory + size + 32 ≤ headOr Block.addr e ys)
    (hnew : ∀ v, K v → v < b.memory + size ∨ b.memory + size + 32 ≤ v) :
    Spaced L.kernelHeapStart (xs ++ ⟨b.addr, n, u⟩ :: ⟨b.memory + size, m, w⟩ :: ys) e ∧
      Room L e K (addrs (xs ++ b :: ⟨b.memory + size, m, w⟩ :: ys)) := by
  obtain ⟨hxs, hys⟩ := Placed.append_cons_iff.mp hspaced
  have hspaced' : ∀ u n, Spaced L.kernelHeapStart
      (xs ++ ⟨b.addr, n, u⟩ :: ⟨b.memory + size, m, w⟩ :: ys) e := by
    intro u n
    refine Placed.append_cons_iff.mpr ⟨hxs, Nat.le_add_right _ _, hys.restart hfit⟩
  refine ⟨hspaced' u n, Room.of_spaced (hspaced' b.used b.size) ?_ ?_⟩
  · intro c hc
    simp only [List.mem_append, List.mem_cons] at hc
    rcases hc with hc | rfl | rfl | hc
    · exact haligned c (by simp [hc])
    · exact haligned c (by simp)
    · have hb := haligned b (by simp)
      simp only [Block.memory]
      omega
    · exact haligned c (by simp [hc])
  · intro c hc
    simp only [List.mem_append, List.mem_cons] at hc
    rcases hc with hc | rfl | rfl | hc
    · exact hclear c (by simp [hc])
    · exact hclear c (by simp)
    · exact hnew
    · exact hclear c (by simp [hc])

/-- `splitEntry` puts a free entry behind the first `size` bytes. -/
theorem Listed.splitEntry (h : Listed L e F K V₀ s₀ (xs ++ b :: ys) s) {size : Nat} (resize : KernelM Unit)
    (hsize : size % 16 = 0) (hfit : b.memory + size + 32 ≤ headOr Block.addr e ys)
    (hle : size + 32 ≤ b.size) (hlt : b.size < 2 ^ 64)
    (hclear : ∀ v, K v → v < b.memory + size ∨ b.memory + size + 32 ≤ v)
    (hresize : ∀ A H z s, Held L e F K V₀ s₀ A H z s → b.addr ∈ A → b.memory + size ∈ A →
      (H b.addr).val.size = b.size → (H (b.memory + size)).val.size = b.size - (size + 32) →
      Outcome.wp E resize (fun _ s' => Held L e F K V₀ s₀ A
        (Function.update H b.addr (resized (H b.addr) size)) z s') s) :
    Outcome.wp E (splitEntry b.addr size resize) (fun _ s' => Listed L e F K V₀ s₀
      (xs ++ ⟨b.addr, size, b.used⟩ :: ⟨b.memory + size, b.size - (size + 32), false⟩ :: ys) s') s := by
  obtain ⟨H, hheld, hlinks⟩ := h.held
  obtain ⟨hspaced, hroom⟩ := room_between (u := b.used) (w := false) (n := size) (m := b.size - (size + 32)) h.spaced
    h.aligned h.clear hsize hfit hclear
  have hnode := hlinks.node
  obtain ⟨hxs, -, hys⟩ := chain_append.mp hlinks
  -- the new entry is none of the old ones
  obtain ⟨hxb, hyb⟩ := h.spaced.ne_around
  have hspaced' : Spaced L.kernelHeapStart ((xs ++ [⟨b.addr, size, b.used⟩]) ++
      ⟨b.memory + size, b.size - (size + 32), false⟩ :: ys) e := by simpa using hspaced
  obtain ⟨hxn, hyn⟩ := hspaced'.ne_around
  have hbn : b.addr ≠ b.memory + size := by simp only [Block.memory]; omega
  have hnew : b.memory + size ∉ addrs (xs ++ b :: ys) := by
    intro hc
    obtain ⟨c, hc, heq⟩ := List.mem_map.mp hc
    simp only [List.mem_append, List.mem_cons] at hc
    rcases hc with hc | rfl | hc
    · exact hxn c (by simp [hc]) heq
    · exact hbn heq
    · exact hyn c hc heq
  obtain ⟨n, hgrown⟩ := hheld.grow hroom (a := b.memory + size) (fun c hc => by
    simp only [addrs, List.map_append, List.map_cons, List.mem_append, List.mem_cons] at hc ⊢
    tauto) hnew
  have hb : b.addr ∈ addrs (xs ++ b :: ⟨b.memory + size, b.size - (size + 32), false⟩ :: ys) := by simp
  have hn : b.memory + size ∈
      addrs (xs ++ b :: ⟨b.memory + size, b.size - (size + 32), false⟩ :: ys) := by simp
  have hltn := hgrown.addr_lt hn
  have hltb := hgrown.addr_lt hb
  have hnext : headOr Block.addr 0 ys < 2 ^ 64 := by
    have h' : Listed L e F K V₀ s₀ ((xs ++ [b]) ++ ys) s := by simpa using h
    exact h'.next_lt
  have hmem : wrap (memoryOf b.addr + size) = b.memory + size := by
    rw [memoryOf_addr (by omega), wrap_of_lt (by omega)]
  have hrest : sub64 b.size (wrap (size + sizeofHeapEntry)) = b.size - (size + 32) := by
    rw [wrap_of_lt (show size + 32 < 2 ^ 64 by omega), sub64_of_le hle hlt]
  have hys' : ∀ {H' : Nat → Node Tag}, (∀ d, d ≠ b.addr → d ≠ b.memory + size → H' d = H d) →
      Links H' b.addr ys := fun heq =>
    hys.congr fun y hy => heq _ (hyb y hy) (hyn y hy)
  unfold Heap.splitEntry
  rw [hmem]
  refine Outcome.wp_bind_returns (hgrown.entrySize hb) ?_
  refine Outcome.wp_bind_returns (hgrown.entryNext hb) ?_
  rw [Function.update_of_ne hbn, hnode]
  simp only [Block.tag]
  rw [hrest]
  refine Outcome.wp_bind (Outcome.wp_mono (hgrown.writeEntry hn (by omega) (by omega) hnext)
    fun _ s₁ h₁ => ?_)
  rw [Function.update_idem] at h₁
  refine Outcome.wp_bind (Outcome.wp_mono (hresize _ _ _ _ h₁ hb hn ?_ ?_) fun _ s₂ h₂ => ?_)
  · rw [Function.update_of_ne hbn, hnode]
    rfl
  · rw [Function.update_self]
  rw [Function.update_of_ne hbn, hnode, lastOr_append, lastOr_cons, Block.tag, resized_mk] at h₂
  refine Outcome.wp_bind (Outcome.wp_mono (h₂.linkBack hb (x := b.memory + size) ?_ (hys' ?_) ?_ ?_ ?_)
    fun _ s₃ h₃ => ?_)
  · rw [Function.update_self]
  · intro d hdb hdn
    rw [Function.update_of_ne hdb, Function.update_of_ne hdn]
  · intro y hy
    simp only [addrs, List.map_append, List.map_cons, List.mem_append, List.mem_cons]
    exact .inr (.inr (.inr (List.mem_map_of_mem hy)))
  · exact Spaced.nodup h.spaced.tail
  · omega
  obtain ⟨H₃, h₃, hys₃, hother₃⟩ := h₃
  have hb₃ := hother₃ b.addr fun y hy => (hyb y hy).symm
  have hn₃ := hother₃ (b.memory + size) fun y hy => (hyn y hy).symm
  rw [Function.update_self] at hb₃
  rw [Function.update_of_ne hbn.symm, Function.update_self] at hn₃
  refine Outcome.wp_mono (h₃.setNext hb (by omega)) fun _ s₄ h₄ => ?_
  rw [hb₃, Node.withNext_mk] at h₄
  refine ⟨⟨_, by simpa using h₄, ?_⟩, hspaced⟩
  refine chain_append.mpr ⟨hxs.congr fun x hx => ?_, ?_, ?_, hys₃.congr fun y hy => ?_⟩
  · have hx₃ := hother₃ x.addr fun y hy => ?_
    rw [Function.update_of_ne (hxb x hx), hx₃, Function.update_of_ne (hxb x hx),
      Function.update_of_ne (hxn x (by simp [hx]))]
    have hlt := (Spaced.around h.spaced).1 x hx
    have hgt := (Spaced.around h.spaced).2 y hy
    omega
  · rw [Function.update_self]
    rfl
  · rw [Function.update_of_ne hbn.symm, hn₃]
    rfl
  · rw [Function.update_of_ne (hyb y hy)]

/-- `cutEntry` with a resize that gives the entry its new size. -/
theorem Listed.cutEntry (h : Listed L e F K V₀ s₀ (xs ++ b :: ys) s) {size : Nat} (resize : KernelM Unit)
    (hsize : size % 16 = 0) (hlt : size + 64 < 2 ^ 64) (hstop : b.stop ≤ headOr Block.addr e ys)
    (hblt : b.size < 2 ^ 64)
    (hclear : size + 64 < b.size → ∀ v, K v → v < b.memory + size ∨ b.memory + size + 32 ≤ v)
    (hresize : size + 64 < b.size → ∀ A H z s, Held L e F K V₀ s₀ A H z s → b.addr ∈ A → b.memory + size ∈ A →
      (H b.addr).val.size = b.size → (H (b.memory + size)).val.size = b.size - (size + 32) →
      Outcome.wp E resize (fun _ s' => Held L e F K V₀ s₀ A
        (Function.update H b.addr (resized (H b.addr) size)) z s') s) :
    Outcome.wp E (cutEntry b.addr size resize)
      (fun _ s' => Listed L e F K V₀ s₀ (xs ++ (b.cut size ++ ys)) s') s := by
  refine Outcome.wp_bind_returns h.entrySize ?_
  have hwrap : wrap (size + sizeofHeapEntry + sizeofMaxAlign) = size + 64 := wrap_of_lt hlt
  rw [hwrap]
  refine Outcome.wp_ite (fun hgt => ?_) fun hle => ?_
  · rw [Block.cut, if_pos hgt]
    simp only [Block.stop] at hstop
    simp only [Block.memory] at hclear ⊢
    exact h.splitEntry resize hsize (by simp only [Block.memory]; omega) (by omega) hblt (hclear hgt) (hresize hgt)
  · rw [Block.cut, if_neg hle]
    exact Outcome.wp_of_returns (Outcome.returns_pure _ s) h

/-- `takeEntry` -/
theorem Listed.takeEntry (h : Listed L e F K V₀ s₀ (xs ++ b :: ys) s) {size : Nat}
    (hsize : size % 16 = 0) (hlt : size + 64 < 2 ^ 64) (hstop : b.stop ≤ headOr Block.addr e ys)
    (hblt : b.size < 2 ^ 64)
    (hclear : ∀ v, K v → ¬b.Owns v) :
    Outcome.wp E (takeEntry b.addr size) (fun p s' => p = b.memory ∧
      Listed L e F K V₀ s₀ (xs ++ (Block.cut ⟨b.addr, b.size, true⟩ size ++ ys)) s') s := by
  have haddr := h.addr_lt (b := b) (by simp)
  refine Outcome.wp_bind (Outcome.wp_mono (h.setUsed true) fun _ s₁ h₁ => ?_)
  refine Outcome.wp_bind (Outcome.wp_mono (h₁.cutEntry (Heap.setSize b.addr size) hsize hlt hstop hblt
    ?_ ?_) fun _ s₂ h₂ => ?_)
  · intro hgt v hv
    have hnot := hclear v hv
    simp only [Block.Owns, Block.memory, Block.stop] at hgt hnot ⊢
    omega
  · exact fun _ A H z s hheld hb _ _ _ => hheld.setSize hb (by omega)
  · exact Outcome.wp_of_returns (Outcome.returns_pure _ s₂) ⟨memoryOf_addr haddr, h₂⟩

/-! ## Looking for a free entry -/

theorem Listed.entryFits (h : Listed L e F K V₀ s₀ (xs ++ b :: ys) s) (size : Nat) :
    ∃ r, (entryFits b.addr size).Returns s r s ∧ (r = true ↔ b.Fits size) := by
  unfold Heap.entryFits Block.Fits
  cases hused : b.used with
  | true =>
    refine ⟨false, ?_, by simp⟩
    have hret := h.entryUsed
    rw [hused] at hret
    exact hret.bind (Outcome.returns_pure _ s)
  | false =>
    refine ⟨decide (b.size ≥ size), ?_, by simp⟩
    have hret := h.entryUsed
    rw [hused] at hret
    exact hret.bind (h.entrySize.bind (Outcome.returns_pure _ s))

/-- The loop of `kmalloc` goes on behind entries that do not fit. -/
theorem Listed.findFree_skip {size fuel : Nat} (h : Listed L e F K V₀ s₀ (xs ++ b :: ys) s)
    (hno : ¬b.Fits size) {r : Nat} (hrest : (findFree size fuel (headOr Block.addr 0 ys)).Returns s r s) :
    (findFree size (fuel + 1) b.addr).Returns s r s := by
  have hne : b.addr ≠ 0 := by
    obtain ⟨H, hheld, -⟩ := h.held
    exact hheld.ne_zero (by simp)
  obtain ⟨found, hret, hfound⟩ := h.entryFits size
  have hfalse : found = false := by
    rw [← Bool.not_eq_true, hfound]
    exact hno
  rw [hfalse] at hret
  unfold Heap.findFree
  rw [if_neg hne]
  exact hret.bind (h.entryNext.bind hrest)

/-- The loop of `kmalloc` finds the first entry that fits. -/
theorem Listed.findFree_first {size fuel : Nat} {zs : List Block}
    (h : Listed L e F K V₀ s₀ (zs ++ (xs ++ b :: ys)) s) (hfuel : (xs ++ b :: ys).length < fuel)
    (hfits : b.Fits size) (hfirst : ∀ x ∈ xs, ¬x.Fits size) :
    b.addr ≠ 0 ∧ (findFree size fuel (headOr Block.addr 0 (xs ++ b :: ys))).Returns s b.addr s := by
  induction xs generalizing zs fuel with
  | nil =>
    obtain ⟨fuel, rfl⟩ : ∃ k, fuel = k + 1 := ⟨fuel - 1, by omega⟩
    have hne : b.addr ≠ 0 := by
      obtain ⟨H, hheld, -⟩ := h.held
      exact hheld.ne_zero (by simp)
    obtain ⟨found, hret, hfound⟩ := h.entryFits size
    rw [hfound.mpr hfits] at hret
    refine ⟨hne, ?_⟩
    unfold Heap.findFree
    rw [List.nil_append, headOr_cons, if_neg hne]
    exact hret.bind (Outcome.returns_pure _ s)
  | cons x xs ih =>
    obtain ⟨fuel, rfl⟩ : ∃ k, fuel = k + 1 := ⟨fuel - 1, by omega⟩
    have h' : Listed L e F K V₀ s₀ ((zs ++ [x]) ++ (xs ++ b :: ys)) s := by simpa using h
    obtain ⟨hne, hret⟩ := @ih fuel _ h' (by simp only [List.cons_append, List.length_cons] at hfuel; omega)
      fun y hy => hfirst y (List.mem_cons_of_mem _ hy)
    exact ⟨hne, h.findFree_skip (hfirst x List.mem_cons_self) hret⟩

/-- The loop of `kmalloc` finds nothing where no entry fits. -/
theorem Listed.findFree_none {size fuel : Nat} (h : Listed L e F K V₀ s₀ (xs ++ ys) s)
    (hfuel : ys.length < fuel) (hnone : ∀ b ∈ ys, ¬b.Fits size) :
    (findFree size fuel (headOr Block.addr 0 ys)).Returns s 0 s := by
  induction ys generalizing xs fuel with
  | nil =>
    obtain ⟨fuel, rfl⟩ : ∃ k, fuel = k + 1 := ⟨fuel - 1, by omega⟩
    unfold Heap.findFree
    rw [headOr_nil, if_pos rfl]
    exact Outcome.returns_pure _ s
  | cons b ys ih =>
    obtain ⟨fuel, rfl⟩ : ∃ k, fuel = k + 1 := ⟨fuel - 1, by omega⟩
    have h' : Listed L e F K V₀ s₀ ((xs ++ [b]) ++ ys) s := by simpa using h
    have hret := @ih _ fuel h' (by simp only [List.length_cons] at hfuel; omega)
      fun c hc => hnone c (List.mem_cons_of_mem _ hc)
    exact h.findFree_skip (hnone b List.mem_cons_self) hret

end KoalemOS.Heap
