import KoalemOS.Heap.Copies
import KoalemOS.Heap.Kmalloc

/-!
# Entries that are resized

The parts of `krealloc` that edit the list of entries: the header of the free entry behind a
block is moved down (`Listed.moveNextDown`), a block is split (`Listed.shrinkBySplit`), or it
takes over the free entries behind it (`Listed.growInto`). What `krealloc` makes of the
entries when it keeps the block in its place is said by `Resized`.
-/

namespace KoalemOS.Heap

open KoalemOS.Library KoalemOS.Library.LinkedList KoalemOS.Mmap KoalemOS.Paging

variable {L : Layout} {e : Nat} {F : Nat → Nat} {K : Nat → Prop} {V V' V₀ : Mem} {s₀ s s' : Kernel}
  {A : List Nat} {H : Nat → Node Tag} {z a : Nat} {b c : Block} {bs xs ys zs : List Block} {size : Nat}
  {E : Stop → Prop}

/-! ## What `krealloc` does to the entries -/

/-- A block, or its first `size` bytes and a free block behind them. -/
inductive Parts (size : Nat) (b : Block) : List Block → Prop where
  | whole : Parts size b [b]
  | two : size + 64 ≤ b.size →
      Parts size b [⟨b.addr, size, b.used⟩, ⟨b.memory + size, b.size - (size + 32), false⟩]

/-- The loop that looks for room behind a block ends at `c`, behind the free blocks `ns`: the
first one large enough for `size` bytes together with a header. -/
structure Absorbs (size : Nat) (ys ns : List Block) (c : Block) (zs : List Block) : Prop where
  split : ys = ns ++ c :: zs
  before : ∀ n ∈ ns, n.used = false ∧ n.size + 32 < size
  free : c.used = false
  fits : size ≤ c.size + 32

/-- What `krealloc` makes of `b` and the blocks behind it when the block stays in its place. -/
inductive Resized (size : Nat) (b : Block) : List Block → List Block → Prop where
  | same {ys : List Block} : size = b.size → Resized size b ys (b :: ys)
  | moveDown {c : Block} {ys : List Block} : size < b.size → c.used = false →
      Resized size b (c :: ys) (b :: ⟨b.memory + size, c.size + (b.size - size), false⟩ :: ys)
  | split {ps ys : List Block} : size < b.size → (∀ c ∈ ys.head?, c.used = true) → Parts size b ps →
      Resized size b ys (ps ++ ys)
  | absorb {ps ys ns zs : List Block} {c : Block} : b.size < size → Absorbs size ys ns c zs →
      Parts size ⟨b.addr, c.size + 32, b.used⟩ ps → Resized size b ys (ps ++ zs)

theorem absorbs_cons_iff {y c : Block} {ns : List Block} : Absorbs size (y :: ys) ns c zs ↔
    (ns = [] ∧ c = y ∧ zs = ys ∧ y.used = false ∧ size ≤ y.size + 32) ∨
      ∃ ns', ns = y :: ns' ∧ y.used = false ∧ y.size + 32 < size ∧ Absorbs size ys ns' c zs := by
  constructor
  · rintro ⟨hsplit, hbefore, hfree, hfits⟩
    cases ns with
    | nil =>
      obtain ⟨rfl, rfl⟩ := List.cons.inj hsplit
      exact .inl ⟨rfl, rfl, rfl, hfree, hfits⟩
    | cons n ns =>
      obtain ⟨rfl, rfl⟩ := List.cons.inj hsplit
      obtain ⟨hn, hsmall⟩ := hbefore y List.mem_cons_self
      exact .inr ⟨ns, rfl, hn, hsmall, rfl, fun m hm => hbefore m (List.mem_cons_of_mem _ hm), hfree, hfits⟩
  · rintro (⟨rfl, rfl, rfl, hfree, hfits⟩ | ⟨ns', rfl, hy, hsmall, habs⟩)
    · exact ⟨rfl, by simp, hfree, hfits⟩
    · exact ⟨by rw [habs.split, List.cons_append], List.forall_mem_cons.mpr ⟨⟨hy, hsmall⟩, habs.before⟩,
        habs.free, habs.fits⟩

/-- There is one place where the loop ends. -/
theorem Absorbs.unique {c c' : Block} {ns ns' zs' : List Block} (h : Absorbs size ys ns c zs)
    (h' : Absorbs size ys ns' c' zs') : ns = ns' ∧ c = c' ∧ zs = zs' := by
  induction ys generalizing ns ns' with
  | nil => exact absurd h.split (by simp)
  | cons y ys ih =>
    rcases absorbs_cons_iff.mp h with ⟨rfl, rfl, rfl, -, hfits⟩ | ⟨ms, rfl, -, hsmall, htail⟩ <;>
      rcases absorbs_cons_iff.mp h' with ⟨rfl, rfl, rfl, -, hfits'⟩ | ⟨ms', rfl, -, hsmall', htail'⟩
    · exact ⟨rfl, rfl, rfl⟩
    · omega
    · omega
    · obtain ⟨rfl, hc, hzs⟩ := ih htail htail'
      exact ⟨rfl, hc, hzs⟩

/-- The parts of a block fill its place. -/
theorem Parts.placed_iff {R : Nat → Nat → Prop} (hR : ∀ x, R x x) {lo hi : Nat} {ps : List Block}
    (h : Parts size b ps) : Placed R Block.addr Block.stop lo (xs ++ (ps ++ ys)) hi ↔
      Placed R Block.addr Block.stop lo (xs ++ b :: ys) hi := by
  cases h with
  | whole => rfl
  | two hle =>
    have hrest : b.memory + size + 32 + (b.size - (size + 32)) = b.stop := by
      simp only [Block.memory, Block.stop]
      omega
    have hrefl : R (b.memory + size) (b.memory + size) := hR _
    simp only [Placed.append_cons_iff, List.cons_append, List.nil_append, Placed.cons_iff, Block.stop_mk, hrest]
    rw [show b.addr + 32 + size = b.memory + size from rfl]
    simp only [hrefl, true_and]

/-- The first part is what the block was, and the second one is free. -/
theorem Parts.cases {ps : List Block} (h : Parts size b ps) : ∃ c rest, ps = c :: rest ∧ c.addr = b.addr ∧
    c.used = b.used ∧ c.size ≤ b.size ∧ min size b.size ≤ c.size ∧ ∀ d ∈ rest, d.used = false := by
  cases h with
  | whole => exact ⟨b, [], rfl, rfl, rfl, le_rfl, Nat.min_le_right _ _, by simp⟩
  | two hle => exact ⟨_, _, rfl, rfl, rfl, by simp only; omega, Nat.min_le_left _ _, by simp⟩

/-- The block begins where it did, and the used blocks behind it stay. -/
theorem Resized.cases {out : List Block} (h : Resized size b ys out) : ∃ c rest, out = c :: rest ∧
    c.addr = b.addr ∧ c.used = b.used ∧ size ≤ c.size ∧ (size ≤ b.size → c.size ≤ b.size) ∧
    (∀ d ∈ ys, d.used = true → d ∈ rest) ∧ ∀ d ∈ rest, d.used = true → d ∈ ys := by
  cases h with
  | same heq => exact ⟨b, ys, rfl, rfl, rfl, heq.le, fun _ => le_rfl, fun _ hd _ => hd, fun _ hd _ => hd⟩
  | @moveDown c zs hlt hc =>
    refine ⟨b, _, rfl, rfl, rfl, hlt.le, fun _ => le_rfl, fun d hd hused => ?_, fun d hd hused => ?_⟩
    · rcases List.mem_cons.mp hd with rfl | hd
      · rw [hc] at hused
        cases hused
      · exact List.mem_cons_of_mem _ hd
    · rcases List.mem_cons.mp hd with rfl | hd
      · cases hused
      · exact List.mem_cons_of_mem _ hd
  | @split ps _ hlt _ hparts =>
    obtain ⟨c, rest, rfl, haddr, hused, hle, hmin, hfree⟩ := hparts.cases
    refine ⟨c, rest ++ ys, rfl, haddr, hused, by omega, fun _ => hle, fun d hd _ => List.mem_append_right _ hd,
      fun d hd hd' => ?_⟩
    rcases List.mem_append.mp hd with hd | hd
    · rw [hfree d hd] at hd'
      cases hd'
    · exact hd
  | @absorb ps _ ns zs a hlt habs hparts =>
    obtain ⟨c, rest, rfl, haddr, hused, hle, hmin, hfree⟩ := hparts.cases
    obtain ⟨rfl, hbefore, hafree, hfits⟩ := habs
    simp only at haddr hused hle hmin
    refine ⟨c, rest ++ zs, rfl, haddr, hused, by omega, fun hle => by omega, fun d hd hd' => ?_, fun d hd hd' => ?_⟩
    · simp only [List.mem_append, List.mem_cons] at hd ⊢
      rcases hd with hd | rfl | hd
      · rw [(hbefore d hd).1] at hd'
        cases hd'
      · rw [hafree] at hd'
        cases hd'
      · exact .inr hd
    · rcases List.mem_append.mp hd with hd | hd
      · rw [hfree d hd] at hd'
        cases hd'
      · exact List.mem_append_right _ (List.mem_cons_of_mem _ hd)

/-! ## The blocks fill the heap -/

theorem Tiles.start_eq {lo lo' hi : Nat} (h : Tiles lo bs hi) (h' : Tiles lo' bs hi) : lo = lo' := by
  cases bs with
  | nil => exact Eq.trans h (Eq.symm h')
  | cons b bs => exact h.1.trans h'.1.symm

/-- No free block behind the one that is made smaller, nor one that a larger one takes over,
apart from a block behind an empty one. -/
def StaysTiled (size : Nat) (b : Block) (ys : List Block) : Prop :=
  (size < b.size → ∀ c ∈ ys.head?, c.used = true) ∧
    (b.size < size → ∀ ns c zs, Absorbs size ys ns c zs → ns = [] ∧ b.size = 0)

/-- **The blocks fill the heap again** when no free one is moved or taken over. -/
theorem Resized.tiles_iff {lo hi : Nat} {out : List Block} (h : Resized size b ys out)
    (ht : Tiles lo (xs ++ b :: ys) hi) : Tiles lo (xs ++ out) hi ↔ StaysTiled size b ys := by
  cases h with
  | same heq =>
    exact iff_of_true ht ⟨fun hlt => absurd heq hlt.ne, fun hlt => absurd heq.symm hlt.ne⟩
  | @moveDown c zs hlt hc =>
    refine iff_of_false (fun ht' => ?_) fun hstays => ?_
    · have hadj : b.stop = b.memory + size := (Placed.append_cons_iff.mp ht').2.1
      simp only [Block.stop, Block.memory] at hadj
      omega
    · have hused := hstays.1 hlt c rfl
      rw [hc] at hused
      cases hused
  | @split ps _ hlt hhead hparts =>
    refine iff_of_true ((hparts.placed_iff fun _ => rfl).mpr ht) ⟨fun _ => hhead, fun hgt => ?_⟩
    omega
  | @absorb ps _ ns zs c hlt habs hparts =>
    refine (hparts.placed_iff fun _ => rfl).trans ?_
    have hsplit := habs.split
    subst hsplit
    obtain ⟨hxs, hbehind⟩ := Placed.append_cons_iff.mp ht
    obtain ⟨hmid, hzs⟩ := Placed.append_cons_iff.mp hbehind
    have hlen := (Tiles.arena hmid).spaced.length_le
    simp only [Block.stop] at hlen hzs
    constructor
    · intro ht'
      have hzs' : Tiles (b.addr + 32 + (c.size + 32)) zs hi := (Placed.append_cons_iff.mp ht').2
      have hstop := hzs'.start_eq hzs
      have hns : ns = [] := List.eq_nil_of_length_eq_zero (by omega)
      refine ⟨fun hgt => by omega, fun _ ns' c' zs' habs' => ?_⟩
      obtain ⟨rfl, -, -⟩ := habs.unique habs'
      exact ⟨hns, by omega⟩
    · intro hstays
      obtain ⟨rfl, hzero⟩ := hstays.2 hlt ns c zs habs
      have hadj : b.stop = c.addr := hmid
      refine Placed.append_cons_iff.mpr ⟨hxs, ?_⟩
      simp only [Block.stop] at hadj ⊢
      rwa [show b.addr + 32 + (c.size + 32) = c.addr + 32 + c.size by omega]

/-- The blocks do not come to overlap when no header is moved into the one that is made smaller. -/
theorem Resized.arena {lo hi : Nat} {out : List Block} (h : Resized size b ys out)
    (ha : Arena lo (xs ++ b :: ys) hi) (hstays : size < b.size → ∀ c ∈ ys.head?, c.used = true) :
    Arena lo (xs ++ out) hi := by
  cases h with
  | same _ => exact ha
  | @moveDown c zs hlt hc =>
    have hused := hstays hlt c rfl
    rw [hc] at hused
    cases hused
  | split _ _ hparts => exact (hparts.placed_iff le_refl).mpr ha
  | @absorb ps _ ns zs c _ habs hparts =>
    refine (hparts.placed_iff le_refl).mpr ?_
    obtain rfl := habs.split
    obtain ⟨hxs, hbehind⟩ := Placed.append_cons_iff.mp ha
    obtain ⟨hmid, hzs⟩ := Placed.append_cons_iff.mp hbehind
    have hle := Placed.le (fun n _ => n.addr_le_stop) hmid
    simp only [Block.stop] at hle hzs
    refine Placed.append_cons_iff.mpr ⟨hxs, hzs.restart (Nat.le_trans ?_ hzs.le_headOr)⟩
    simp only [Block.stop]
    omega

theorem cut_parts (b : Block) (size : Nat) : Parts size b (b.cut size) := by
  rcases b.cut_cases size with hcut | ⟨hlt, hcut⟩ <;> rw [hcut]
  · exact .whole
  · exact .two hlt.le

/-! ## A header that is moved -/

/-- A header that is copied. -/
theorem header_moved (h : ∀ i < 32, V' (a + i) = V (z + i)) : header V' a = header V z := by
  have hload : ∀ i, i ≤ 24 → V'.load64 (a + i) = V.load64 (z + i) := fun i hi =>
    Mem.loadLE_shift fun j hj => by
      rw [Nat.add_assoc, Nat.add_assoc]
      exact h (i + j) (by omega)
  have hsize : V'.load64 a = V.load64 z := hload 0 (by decide)
  unfold header
  rw [h 8 (by decide), hsize, hload 16 (by decide), hload 24 (by decide)]

/-- The header of the entry at `z` is copied to `a`, off the other headers. -/
theorem Held.moveHeader {A' : List Nat} (h : Held L e F K V₀ s₀ A H z s) (hc : c.addr ∈ A) (hroom : Room L e K A')
    (ha : a ∈ A') (hsub : ∀ d ∈ A', d = a ∨ d ∈ A) :
    Outcome.wp E (memmove a c.addr sizeofHeapEntry)
      (fun _ s' => Held L e F K V₀ s₀ A' (Function.update H a (H c.addr)) z s') s := by
  obtain ⟨V, hpages, hheaders, hkept⟩ := h.bytes
  have hdest : L.RangeIn e a 32 := by
    have haligned := hroom.aligned a ha
    exact ⟨hroom.lower a ha, hroom.upper a ha, by omega⟩
  have hsrc : L.RangeIn e c.addr 32 := by
    have haligned := h.room.aligned _ hc
    exact ⟨h.room.lower _ hc, h.room.upper _ hc, by omega⟩
  refine Outcome.wp_mono (hpages.memmove hdest hsrc) fun _ s' hs => ?_
  obtain ⟨⟨V', hpages', hmoved⟩, hstep, hlast⟩ := hs
  have hother : ∀ v, v < a ∨ a + 32 ≤ v → V' v = V v := fun v hv => hmoved.other v hv
  refine ⟨hroom, ⟨V', hpages', fun d hd => ?_, fun v hv => ?_⟩, hlast.trans h.lastEntry, h.step.trans hstep⟩
  · by_cases hda : d = a
    · subst hda
      rw [Function.update_self, ← hheaders _ hc]
      exact header_moved fun i hi => hmoved.copied i (Nat.zero_le i) hi
    · rw [Function.update_of_ne hda, ← hheaders d ((hsub d hd).resolve_left hda)]
      refine header_congr fun v h₁ h₂ => hother v ?_
      have hapart := hroom.apart d hd a ha hda
      omega
  · rw [hother v (hroom.clear a ha v hv), hkept v hv]

/-- `moveNextDown`: the free entry behind a block begins behind the first `size` bytes of the
block, whose own size stays. -/
theorem Listed.moveNextDown (h : Listed L e F K V₀ s₀ (xs ++ b :: c :: ys) s) (hsize : size % 16 = 0)
    (hle : size ≤ b.size) (hstop : b.stop ≤ c.addr) (hbig : c.size + b.size < 2 ^ 64)
    (hclear : ∀ v, K v → v < b.memory + size ∨ b.memory + size + 32 ≤ v) :
    Outcome.wp E (moveNextDown b.addr size) (fun _ s' => Listed L e F K V₀ s₀
      (xs ++ b :: ⟨b.memory + size, c.size + (b.size - size), c.used⟩ :: ys) s') s := by
  obtain ⟨H, hheld, hlinks⟩ := h.held
  have hspaced₀ : Spaced L.kernelHeapStart (xs ++ b :: ys) e := Spaced.omit [c] h.spaced
  have hsub : ∀ d ∈ xs ++ b :: ys, d ∈ xs ++ b :: c :: ys := fun d hd => by
    simp only [List.mem_append, List.mem_cons] at hd ⊢
    tauto
  have hbehind : c.memory ≤ headOr Block.addr e ys := by
    have hc : Spaced L.kernelHeapStart ((xs ++ [b]) ++ c :: ys) e := by simpa using h.spaced
    exact Placed.le_headOr (Placed.append_cons_iff.mp hc).2
  have hdest : b.memory + size ≤ c.addr := by
    simp only [Block.memory, Block.stop] at hstop ⊢
    omega
  obtain ⟨hspaced, hroom⟩ := room_between (u := b.used) (w := c.used) (n := b.size)
    (m := c.size + (b.size - size)) hspaced₀
    (h.aligned.mono hsub) (fun d hd => h.clear d (hsub d hd)) hsize (by
      simp only [Block.memory] at hbehind hdest ⊢
      omega) hclear
  generalize hd : (⟨b.memory + size, c.size + (b.size - size), c.used⟩ : Block) = d at hspaced hroom ⊢
  have hda : b.memory + size = d.addr := by rw [← hd]
  obtain ⟨hxs, hb, hc, hys⟩ := chain_append.mp hlinks
  obtain ⟨hxb, hyb⟩ := hspaced₀.ne_around
  replace hspaced : Spaced L.kernelHeapStart (xs ++ b :: d :: ys) e := hspaced
  have hspaced' : Spaced L.kernelHeapStart ((xs ++ [b]) ++ d :: ys) e := by simpa using hspaced
  obtain ⟨hxd, hyd⟩ := hspaced'.ne_around
  have hbd : b.addr ≠ d.addr := hxd b (by simp)
  have hbmem : b.addr ∈ addrs (xs ++ b :: d :: ys) := by simp
  have hdmem : d.addr ∈ addrs (xs ++ b :: d :: ys) := by simp
  have hltd := (Held.addr_lt hheld (a := b.addr) (by simp))
  have hend := hheld.end_le
  have hdlt : d.addr + 32 < 2 ^ 64 := by
    have hupper := hroom.upper _ hdmem
    omega
  have hmem : wrap (memoryOf b.addr + size) = d.addr := by
    rw [memoryOf_addr (by omega), hda, wrap_of_lt (by omega)]
  unfold Heap.moveNextDown
  rw [hmem]
  refine Outcome.wp_bind_returns h.entryNext ?_
  rw [headOr_cons]
  -- the header at its new place
  refine Outcome.wp_bind (Outcome.wp_mono (hheld.moveHeader (c := c) (by simp) hroom hdmem fun x hx => ?_)
    fun _ s₁ h₁ => ?_)
  · simp only [addrs, List.map_append, List.map_cons, List.mem_append, List.mem_cons] at hx ⊢
    tauto
  simp only [lastOr_append, lastOr_cons] at h₁
  rw [hc] at h₁
  refine Outcome.wp_bind (Outcome.wp_mono (h₁.setNext hbmem (x := d.addr) (by omega)) fun _ s₂ h₂ => ?_)
  rw [Function.update_of_ne hbd, hb, Node.withNext_mk] at h₂
  have hsize₂ := h₂.entrySize hdmem
  rw [Function.update_of_ne hbd.symm, Function.update_self] at hsize₂
  refine Outcome.wp_bind_returns hsize₂ ?_
  have hwhole₂ := h₂.entrySize hbmem
  rw [Function.update_self] at hwhole₂
  refine Outcome.wp_bind_returns hwhole₂ ?_
  have hdsize : wrap (c.tag.size + sub64 b.tag.size size) = d.size := by
    rw [← hd]
    simp only [Block.tag]
    rw [sub64_of_le hle (by omega), wrap_of_lt (by omega)]
  rw [hdsize]
  refine Outcome.wp_bind (Outcome.wp_mono (h₂.setSize hdmem (x := d.size) ?_) fun _ s₃ h₃ => ?_)
  · rw [← hd]
    simp only
    omega
  rw [Function.update_of_ne hbd.symm, Function.update_self] at h₃
  have hdtag : resized ⟨c.tag, b.addr, headOr Block.addr 0 ys⟩ d.size = ⟨d.tag, b.addr, headOr Block.addr 0 ys⟩ := by
    rw [← hd]
    rfl
  rw [hdtag] at h₃
  refine Outcome.wp_mono (h₃.linkBack (z := c.addr) hdmem (x := d.addr) ?_ ?_ ?_ ?_ (by omega)) fun _ s₄ h₄ => ?_
  · rw [Function.update_self]
  · refine hys.congr fun y hy => ?_
    rw [Function.update_of_ne (hyd y hy), Function.update_of_ne (hyb y hy), Function.update_of_ne (hyd y hy)]
  · intro y hy
    simp only [addrs, List.map_append, List.map_cons, List.mem_append, List.mem_cons]
    exact .inr (.inr (.inr (List.mem_map_of_mem hy)))
  · exact Spaced.nodup hspaced₀.tail
  obtain ⟨H₄, h₄, hys₄, hother₄⟩ := h₄
  have hb₄ := hother₄ b.addr fun y hy => (hyb y hy).symm
  have hd₄ := hother₄ d.addr fun y hy => (hyd y hy).symm
  rw [Function.update_of_ne hbd, Function.update_self] at hb₄
  rw [Function.update_self] at hd₄
  refine ⟨⟨H₄, by simpa using h₄, chain_append.mpr ⟨hxs.congr fun x hx => ?_, hb₄, hd₄, hys₄⟩⟩, hspaced⟩
  have hx₄ := hother₄ x.addr fun y hy => ?_
  · rw [hx₄, Function.update_of_ne (hxd x (by simp [hx])), Function.update_of_ne (hxb x hx),
      Function.update_of_ne (hxd x (by simp [hx]))]
  · have hlt := (Spaced.around hspaced₀).1 x hx
    have hgt := (Spaced.around hspaced₀).2 y hy
    omega

/-! ## Shrinking -/

/-- `shrinkBySplit` -/
theorem Listed.shrinkBySplit (h : Listed L e F K V₀ s₀ (xs ++ b :: ys) s) (hsize : size % 16 = 0)
    (hle : size ≤ b.size) (hstop : b.stop ≤ headOr Block.addr e ys) (hlt : b.size < 2 ^ 64)
    (hclear : ∀ v, K v → ¬(b.memory + size ≤ v ∧ v < b.stop)) :
    Outcome.wp E (shrinkBySplit b.addr size)
      (fun _ s' => ∃ ps, Parts size b ps ∧ Listed L e F K V₀ s₀ (xs ++ (ps ++ ys)) s') s := by
  refine Outcome.wp_bind_returns h.entrySize ?_
  rw [sub64_of_le hle hlt]
  refine Outcome.wp_ite (fun hge => ?_) fun _ => ?_
  · simp only [sizeofHeapEntry, sizeofMaxAlign] at hge
    simp only [Block.stop] at hstop
    refine Outcome.wp_mono (h.splitEntry (Heap.setSize b.addr size) hsize ?_ (by omega) hlt (fun v hv => ?_) ?_)
      fun _ s' hs => ⟨_, .two (by omega), hs⟩
    · simp only [Block.memory]
      omega
    · have hnot := hclear v hv
      simp only [Block.memory, Block.stop] at hnot ⊢
      omega
    · exact fun A H z s hheld hb _ _ _ => hheld.setSize hb (by omega)
  · exact Outcome.wp_of_returns (Outcome.returns_pure _ s) ⟨[b], .whole, h⟩

/-- `entry->next && !entry->next->used` -/
theorem Listed.nextIsFree (h : Listed L e F K V₀ s₀ (xs ++ b :: ys) s) :
    ∃ r, (nextIsFree b.addr).Returns s r s ∧ (r = true ↔ ∃ c zs, ys = c :: zs ∧ c.used = false) := by
  unfold Heap.nextIsFree
  cases ys with
  | nil => exact ⟨false, h.entryNext.bind (Outcome.returns_pure _ s), by simp⟩
  | cons c ys =>
    have hc : Listed L e F K V₀ s₀ ((xs ++ [b]) ++ c :: ys) s := by simpa using h
    have hne : c.addr ≠ 0 := by
      obtain ⟨H, hheld, -⟩ := hc.held
      exact hheld.ne_zero (by simp)
    refine ⟨!c.used, h.entryNext.bind ?_, by simp⟩
    rw [headOr_cons, if_neg hne]
    exact hc.entryUsed.bind (Outcome.returns_pure _ s)

theorem Listed.end_le (h : Listed L e F K V₀ s₀ bs s) : e ≤ 0xFFFFFF8000000000 := by
  obtain ⟨V, hpages, -⟩ := h.bytes
  exact hpages.end_le

/-- `shrinkEntry` -/
theorem Listed.shrinkEntry (h : Listed L e F K V₀ s₀ (xs ++ b :: ys) s) (hsize : size % 16 = 0)
    (hlt : size < b.size) (harena : Arena L.kernelHeapStart (xs ++ b :: ys) e)
    (hclear : ∀ v, K v → v < b.memory + size ∨ headOr Block.addr e ys ≤ v) :
    Outcome.wp E (shrinkEntry b.addr size)
      (fun _ s' => ∃ out, Resized size b ys out ∧ Listed L e F K V₀ s₀ (xs ++ out) s') s := by
  have hend := h.end_le
  have hstop := Arena.stop_le harena
  obtain ⟨r, hret, hfree⟩ := h.nextIsFree
  refine Outcome.wp_bind_returns hret ?_
  refine Outcome.wp_ite (fun hr => ?_) fun hr => ?_
  · obtain ⟨c, zs, rfl, hc⟩ := hfree.mp hr
    have hbound := Arena.bounds harena (b := c) (by simp)
    rw [headOr_cons] at hstop hclear
    simp only [Block.stop] at hbound hstop
    refine Outcome.wp_mono (h.moveNextDown hsize hlt.le hstop (by omega) fun v hv => ?_) fun _ s' hs => ?_
    · -- the bytes that are kept are off the header of `c`
      have hoff := h.clear c (by simp) v hv
      have hkept := hclear v hv
      simp only [Block.memory] at hoff hkept ⊢
      omega
    · rw [hc] at hs
      exact ⟨_, .moveDown hlt hc, hs⟩
  · have hbound := Arena.bounds harena (b := b) (by simp)
    refine Outcome.wp_mono (h.shrinkBySplit hsize hlt.le hstop ?_ fun v hv => ?_) fun _ s' hs => ?_
    · simp only [Block.stop] at hbound
      omega
    · have hkept := hclear v hv
      omega
    · obtain ⟨ps, hparts, hlisted⟩ := hs
      refine ⟨_, .split hlt (fun c hc => ?_) hparts, hlisted⟩
      obtain ⟨zs, rfl⟩ := List.head?_eq_some_iff.mp hc
      by_contra hused
      exact hr (hfree.mpr ⟨c, zs, rfl, by simpa using hused⟩)

/-! ## Growing -/

/-- The loop that looks for room behind an entry. -/
theorem Listed.growLoop {fuel tot : Nat} (h : Listed L e F K V₀ s₀ (xs ++ b :: ys) s) (hfuel : ys.length < fuel)
    (hys : ∀ y ∈ ys, y.stop < 2 ^ 64) (htot : tot < size) :
    ∃ r, (growLoop size fuel b.addr tot).Returns s r s ∧
      ((∃ ns c zs, Absorbs size ys ns c zs ∧ r = (c.addr, c.size + 32)) ∨
        r.2 < size ∧ ∀ ns c zs, ¬Absorbs size ys ns c zs) := by
  induction ys generalizing xs b fuel tot with
  | nil =>
    obtain ⟨fuel, rfl⟩ : ∃ k, fuel = k + 1 := ⟨fuel - 1, by omega⟩
    refine ⟨(0, tot), ?_, .inr ⟨htot, fun ns c zs habs => ?_⟩⟩
    · unfold Heap.growLoop
      rw [if_pos htot]
      exact h.entryNext.bind (Outcome.returns_pure _ s)
    · have hsplit := habs.split
      simp at hsplit
  | cons y ys ih =>
    obtain ⟨fuel, rfl⟩ : ∃ k, fuel = k + 1 := ⟨fuel - 1, by omega⟩
    have hy : Listed L e F K V₀ s₀ ((xs ++ [b]) ++ y :: ys) s := by simpa using h
    have hne : y.addr ≠ 0 := by
      obtain ⟨H, hheld, -⟩ := hy.held
      exact hheld.ne_zero (by simp)
    have hlt := hys y List.mem_cons_self
    simp only [Block.stop] at hlt
    have hstep : ∀ {r}, (growLoop size fuel y.addr (y.size + 32)).Returns s r s → y.used = false →
        (growLoop size (fuel + 1) b.addr tot).Returns s r s := by
      intro r hret hfree
      have hused := hy.entryUsed
      rw [hfree] at hused
      unfold Heap.growLoop
      rw [if_pos htot]
      refine h.entryNext.bind ?_
      rw [headOr_cons, if_neg hne]
      refine hused.bind (hy.entrySize.bind ?_)
      rwa [wrap_of_lt (show y.size + sizeofHeapEntry < 2 ^ 64 from Nat.lt_of_le_of_lt (by
        simp only [sizeofHeapEntry]
        omega) hlt)]
    cases hused : y.used with
    | true =>
      refine ⟨(y.addr, tot), ?_, .inr ⟨htot, fun ns c zs habs => ?_⟩⟩
      · have hret := hy.entryUsed
        rw [hused] at hret
        unfold Heap.growLoop
        rw [if_pos htot]
        refine h.entryNext.bind ?_
        rw [headOr_cons, if_neg hne]
        exact hret.bind (Outcome.returns_pure _ s)
      · rcases absorbs_cons_iff.mp habs with ⟨-, -, -, hfree, -⟩ | ⟨-, -, hfree, -⟩ <;> simp [hused] at hfree
    | false =>
      by_cases hsmall : y.size + 32 < size
      · have hfuel' : ys.length < fuel := Nat.lt_of_succ_lt_succ hfuel
        obtain ⟨r, hret, hfound⟩ := ih hy hfuel' (fun d hd => hys d (List.mem_cons_of_mem _ hd)) hsmall
        refine ⟨r, hstep hret hused, ?_⟩
        rcases hfound with ⟨ns, c, zs, habs, hr⟩ | ⟨hr, hnone⟩
        · exact .inl ⟨y :: ns, c, zs, absorbs_cons_iff.mpr (.inr ⟨ns, rfl, hused, hsmall, habs⟩), hr⟩
        · refine .inr ⟨hr, fun ns c zs habs => ?_⟩
          rcases absorbs_cons_iff.mp habs with ⟨-, -, -, -, hfits⟩ | ⟨ns', -, -, -, habs'⟩
          · omega
          · exact hnone ns' c zs habs'
      · -- the loop ends at its next test
        obtain ⟨fuel, rfl⟩ : ∃ k, fuel = k + 1 := ⟨fuel - 1, by simp only [List.length_cons] at hfuel; omega⟩
        have hret : (growLoop size (fuel + 1) y.addr (y.size + 32)).Returns s (y.addr, y.size + 32) s := by
          unfold Heap.growLoop
          rw [if_neg hsmall]
          exact Outcome.returns_pure _ s
        exact ⟨_, hstep hret hused, .inl ⟨[], y, ys, ⟨rfl, by simp, hused, by omega⟩, rfl⟩⟩

/-- `growInto` takes over the free entries up to `c`, with the size of the last of them. -/
theorem Listed.growInto {ns : List Block} (h : Listed L e F K V₀ s₀ (xs ++ b :: (ns ++ c :: zs)) s)
    (hsize : size % 16 = 0) (hfits : size ≤ c.size + 32)
    (harena : Arena L.kernelHeapStart (xs ++ b :: (ns ++ c :: zs)) e)
    (hclear : ∀ v, K v → v < b.memory + size ∨ c.stop ≤ v) :
    Outcome.wp E (growInto b.addr c.addr (c.size + 32) size) (fun _ s' => ∃ ps,
      Parts size ⟨b.addr, c.size + 32, b.used⟩ ps ∧ Listed L e F K V₀ s₀ (xs ++ (ps ++ zs)) s') s := by
  have hend := h.end_le
  have hc : Listed L e F K V₀ s₀ ((xs ++ b :: ns) ++ c :: zs) s := by simpa using h
  have harena' : Arena L.kernelHeapStart ((xs ++ b :: ns) ++ c :: zs) e := by simpa using harena
  have hbound := harena'.bounds (b := c) (by simp)
  have hbehind := Arena.stop_le harena'
  have hbc := harena'.around.1 b (by simp)
  simp only [Block.stop] at hbound hbehind hbc
  refine Outcome.wp_bind_returns hc.entryNext ?_
  have hmid : Listed L e F K V₀ s₀ (xs ++ b :: ((ns ++ [c]) ++ zs)) s := by simpa using h
  refine Outcome.wp_bind (Outcome.wp_mono (hmid.linkTo (ns ++ [c])) fun _ s₁ h₁ => ?_)
  refine Outcome.wp_bind (Outcome.wp_mono (h₁.setSize (x := c.size + 32) (by omega)) fun _ s₂ h₂ => ?_)
  have haddr := h.addr_lt (b := b) (by simp)
  have hmem : wrap (memoryOf b.addr + size) = b.memory + size := by
    simp only [Block.memory]
    rw [memoryOf_addr (by omega), Block.memory, wrap_of_lt (by omega)]
  rw [hmem]
  refine Outcome.wp_mono (h₂.cutEntry (subtractNext b.addr (b.memory + size)) hsize (by omega) ?_ ?_ ?_ ?_)
    fun _ s₃ h₃ => ⟨_, cut_parts _ size, h₃⟩
  · simp only [Block.stop]
    omega
  · simp only
    omega
  · intro hgt v hv
    have hkept := hclear v hv
    simp only [Block.memory, Block.stop] at hgt hkept ⊢
    omega
  · intro hgt A H z t hheld hb hn hwhole hrest
    refine Outcome.wp_bind_returns (hheld.entrySize hb) (Outcome.wp_bind_returns (hheld.entrySize hn) ?_)
    rw [hwhole, show (H (b.memory + size)).val.size = c.size + 32 - (size + 32) from hrest]
    simp only [sizeofHeapEntry] at hgt ⊢
    rw [wrap_of_lt (by omega), sub64_of_le (by omega) (by omega),
      show c.size + 32 - (c.size + 32 - (size + 32) + 32) = size by omega]
    exact hheld.setSize hb (by omega)

/-! ## The block stays in its place -/

/-- `kreallocInPlace`: the block is resized, or there is no room behind it and nothing has
changed. -/
theorem Listed.kreallocInPlace (h : Listed L e F K V₀ s₀ (xs ++ b :: ys) s) (hsize : size % 16 = 0)
    (harena : Arena L.kernelHeapStart (xs ++ b :: ys) e) (hlen : ys.length < listFuel)
    (hclear : size < b.size → ∀ v, K v → v < b.memory + size ∨ headOr Block.addr e ys ≤ v)
    (hclear' : b.size < size → ∀ ns c zs, Absorbs size ys ns c zs → ∀ v, K v → v < b.stop ∨ c.stop ≤ v) :
    Outcome.wp E (kreallocInPlace b.addr size) (fun done s' =>
      (done = true ∧ ∃ out, Resized size b ys out ∧ Listed L e F K V₀ s₀ (xs ++ out) s') ∨
      (done = false ∧ s' = s ∧ b.size < size ∧ ∀ ns c zs, ¬Absorbs size ys ns c zs)) s := by
  have hend := h.end_le
  refine Outcome.wp_bind_returns h.entrySize ?_
  refine Outcome.wp_ite (fun hlt => ?_) fun hge => Outcome.wp_ite (fun heq => ?_) fun hne => ?_
  · refine Outcome.wp_bind (Outcome.wp_mono (h.shrinkEntry hsize hlt harena (hclear hlt)) fun _ s₁ hs => ?_)
    exact Outcome.wp_of_returns (Outcome.returns_pure _ s₁) (.inl ⟨rfl, hs⟩)
  · exact Outcome.wp_of_returns (Outcome.returns_pure _ s) (.inl ⟨rfl, _, .same heq, h⟩)
  · have hlt : b.size < size := by omega
    have hstops : ∀ y ∈ ys, y.stop < 2 ^ 64 := fun y hy => by
      have hbound := harena.bounds (b := y) (by simp [hy])
      omega
    obtain ⟨r, hret, hfound⟩ := h.growLoop hlen hstops hlt
    refine Outcome.wp_bind_returns hret ?_
    rcases hfound with ⟨ns, c, zs, habs, rfl⟩ | ⟨hr, hnone⟩
    · rw [if_pos habs.fits]
      obtain rfl := habs.split
      refine Outcome.wp_bind (Outcome.wp_mono (h.growInto hsize habs.fits harena fun v hv => ?_) fun _ s₁ hs => ?_)
      · have hkept := hclear' hlt ns c zs habs v hv
        simp only [Block.memory, Block.stop] at hkept ⊢
        omega
      · obtain ⟨ps, hparts, hlisted⟩ := hs
        exact Outcome.wp_of_returns (Outcome.returns_pure _ s₁) (.inl ⟨rfl, _, .absorb hlt habs hparts, hlisted⟩)
    · rw [if_neg (by omega)]
      exact Outcome.wp_of_returns (Outcome.returns_pure _ s) (.inr ⟨rfl, rfl, hlt, hnone⟩)

end KoalemOS.Heap
