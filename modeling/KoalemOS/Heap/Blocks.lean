import KoalemOS.Library.LinkedList
import KoalemOS.Library.Segments
import Mathlib.Data.List.Chain

/-!
# The blocks of the heap

What the list of heap entries stands for: blocks in address order, each a header of 32 bytes
and `size` bytes behind it.

- `Spaced`, `Arena`, `Tiles`: headers, blocks, and blocks without gaps between two addresses
- `Taken`, `LastMerged`, `NextMerged`, `Trimmed`: what the operations do to the list
- `NoTwoFree`: no free block is next to another one
-/

namespace KoalemOS.Heap

open KoalemOS.Library

/-! ## Blocks -/

/-- What a header says of its own block. -/
structure Tag where
  size : Nat
  used : Bool
  deriving DecidableEq

/-- A block of the heap, at the address of its header. -/
structure Block where
  addr : Nat
  size : Nat
  used : Bool
  deriving DecidableEq

namespace Block

def tag (b : Block) : Tag := ⟨b.size, b.used⟩

/-- Where the memory of a block starts. -/
def memory (b : Block) : Nat := b.addr + 32

/-- One past the last byte of a block. -/
def stop (b : Block) : Nat := b.addr + 32 + b.size

theorem eq_of_addr_tag (b c : Block) (haddr : b.addr = c.addr) (htag : b.tag = c.tag) : b = c := by
  obtain ⟨a, n, u⟩ := b
  obtain ⟨a', n', u'⟩ := c
  simp only [tag, Tag.mk.injEq] at haddr htag
  rw [haddr, htag.1, htag.2]

/-- The bytes of a block that belong to its owner. -/
def Owns (b : Block) (v : Nat) : Prop := b.memory ≤ v ∧ v < b.stop

@[simp] theorem memory_mk (a n : Nat) (u : Bool) : memory ⟨a, n, u⟩ = a + 32 := rfl

@[simp] theorem stop_mk (a n : Nat) (u : Bool) : stop ⟨a, n, u⟩ = a + 32 + n := rfl

@[simp] theorem tag_mk (a n : Nat) (u : Bool) : tag ⟨a, n, u⟩ = ⟨n, u⟩ := rfl

theorem memory_le_stop (b : Block) : b.memory ≤ b.stop := Nat.le_add_right _ _

theorem addr_le_memory (b : Block) : b.addr ≤ b.memory := Nat.le_add_right _ _

theorem addr_le_stop (b : Block) : b.addr ≤ b.stop := b.addr_le_memory.trans b.memory_le_stop

end Block

/-! ## Lists of blocks -/

/-- The headers lie between `lo` and `hi`, in order. -/
abbrev Spaced : Nat → List Block → Nat → Prop := Placed (· ≤ ·) Block.addr Block.memory

/-- The blocks lie between `lo` and `hi`, in order. -/
abbrev Arena : Nat → List Block → Nat → Prop := Placed (· ≤ ·) Block.addr Block.stop

/-- The blocks fill the addresses from `lo` to `hi`. -/
abbrev Tiles : Nat → List Block → Nat → Prop := Placed (· = ·) Block.addr Block.stop

/-- Every header is aligned. -/
def Aligned (bs : List Block) : Prop := ∀ b ∈ bs, b.addr % 16 = 0

/-- No free block is next to another one. -/
abbrev NoTwoFree : List Block → Prop := List.IsChain fun b c => ¬(b.used = false ∧ c.used = false)

variable {b c : Block} {bs xs ys : List Block} {lo hi : Nat}

theorem Tiles.arena (h : Tiles lo bs hi) : Arena lo bs hi := h.imp fun _ _ => le_of_eq

theorem Arena.spaced (h : Arena lo bs hi) : Spaced lo bs hi :=
  Placed.narrow h fun b _ => b.memory_le_stop

theorem Spaced.bounds (h : Spaced lo bs hi) (hb : b ∈ bs) : lo ≤ b.addr ∧ b.memory ≤ hi :=
  Placed.bounds (fun c _ => c.addr_le_memory) h hb

theorem Arena.bounds (h : Arena lo bs hi) (hb : b ∈ bs) : lo ≤ b.addr ∧ b.stop ≤ hi :=
  Placed.bounds (fun c _ => c.addr_le_stop) h hb

/-- The headers before and behind a block. -/
theorem Spaced.around (h : Spaced lo (xs ++ b :: ys) hi) :
    (∀ c ∈ xs, c.addr + 32 ≤ b.addr) ∧ ∀ c ∈ ys, b.addr + 32 ≤ c.addr :=
  Library.Placed.around (fun c _ => c.addr_le_memory) (fun c _ => c.addr_le_memory) h

/-- Headers of different blocks are apart. -/
theorem Spaced.apart (h : Spaced lo bs hi) (hb : b ∈ bs) (hc : c ∈ bs) (hne : b.addr ≠ c.addr) :
    b.addr + 32 ≤ c.addr ∨ c.addr + 32 ≤ b.addr := by
  obtain ⟨xs, ys, rfl⟩ := List.append_of_mem hb
  obtain ⟨hxs, hys⟩ := Spaced.around h
  simp only [List.mem_append, List.mem_cons] at hc
  rcases hc with hc | rfl | hc
  · exact .inr (hxs c hc)
  · exact absurd rfl hne
  · exact .inl (hys c hc)

theorem Arena.around (h : Arena lo (xs ++ b :: ys) hi) :
    (∀ c ∈ xs, c.stop ≤ b.addr) ∧ ∀ c ∈ ys, b.stop ≤ c.addr :=
  Library.Placed.around (fun c _ => c.addr_le_stop) (fun c _ => c.addr_le_stop) h

/-- Different blocks do not overlap. -/
theorem Arena.apart (h : Arena lo bs hi) (hb : b ∈ bs) (hc : c ∈ bs) (hne : b ≠ c) :
    b.stop ≤ c.addr ∨ c.stop ≤ b.addr := by
  obtain ⟨xs, ys, rfl⟩ := List.append_of_mem hb
  obtain ⟨hxs, hys⟩ := Arena.around h
  simp only [List.mem_append, List.mem_cons] at hc
  rcases hc with hc | rfl | hc
  · exact .inr (hxs c hc)
  · exact absurd rfl hne
  · exact .inl (hys c hc)

/-- There is one block at an address. -/
theorem Arena.eq_of_addr (h : Arena lo bs hi) (hb : b ∈ bs) (hc : c ∈ bs) (haddr : b.addr = c.addr) :
    b = c := by
  by_contra hne
  have hapart := h.apart hb hc hne
  simp only [Block.stop] at hapart
  omega

theorem Aligned.mono (h : Aligned bs) (hsub : ∀ b ∈ xs, b ∈ bs) : Aligned xs :=
  fun b hb => h b (hsub b hb)

/-! ## Lists of a heap -/

theorem Spaced.nodup (h : Spaced lo bs hi) : (bs.map Block.addr).Nodup := by
  refine List.pairwise_map.mpr ((Placed.pairwise (fun b _ => b.addr_le_memory) h).imp ?_)
  intro b c hbc
  have := b.addr_le_memory
  simp only [Block.memory] at hbc
  omega

theorem Spaced.tail (h : Spaced lo (xs ++ b :: ys) hi) : Spaced b.memory ys hi :=
  (Placed.append_cons_iff.mp h).2

/-- The entries before and behind one of the list are others. -/
theorem Spaced.ne_around (h : Spaced lo (xs ++ b :: ys) hi) :
    (∀ x ∈ xs, x.addr ≠ b.addr) ∧ ∀ y ∈ ys, y.addr ≠ b.addr := by
  obtain ⟨hxs, hys⟩ := Spaced.around h
  refine ⟨fun x hx => ?_, fun y hy => ?_⟩
  · have := hxs x hx
    omega
  · have := hys y hy
    omega

/-- There is a header's room for each entry. -/
theorem Spaced.length_le (h : Spaced lo bs hi) : lo + 32 * bs.length ≤ hi := by
  induction bs generalizing lo with
  | nil => exact h
  | cons b bs ih =>
    have htail := ih h.2
    have hb := h.1
    simp only [Block.memory, List.length_cons] at htail ⊢
    omega

/-! ## What the operations do -/

/-- A free block with room for `size` bytes. -/
def Block.Fits (b : Block) (size : Nat) : Prop := b.used = false ∧ size ≤ b.size

/-- Cut off what a block has beyond `size` bytes, if there is room for another block. -/
def Block.cut (b : Block) (size : Nat) : List Block :=
  if b.size > size + 64 then
    [⟨b.addr, size, b.used⟩, ⟨b.memory + size, b.size - (size + 32), false⟩]
  else [b]

/-- Merge a block into the one before it, where that is free and ends where the block starts:
the list before and the block afterwards. -/
inductive LastMerged : List Block → Block → List Block → Block → Prop where
  | merge {xs : List Block} {p b : Block} : p.used = false → p.stop = b.addr →
      LastMerged (xs ++ [p]) b xs ⟨p.addr, p.size + (32 + b.size), false⟩
  | keep {xs : List Block} {b : Block} :
      (∀ ps p, xs = ps ++ [p] → p.used = false → p.stop ≠ b.addr) → LastMerged xs b xs b

/-- Merge the block behind a block into it, where that is free and starts where the block
ends: the block and the list behind it afterwards. -/
inductive NextMerged : Block → List Block → Block → List Block → Prop where
  | merge {b c : Block} {ys : List Block} : c.used = false → b.stop = c.addr →
      NextMerged b (c :: ys) ⟨b.addr, b.size + (32 + c.size), b.used⟩ ys
  | keep {b : Block} {ys : List Block} :
      (∀ c cs, ys = c :: cs → c.used = false → b.stop ≠ c.addr) → NextMerged b ys b ys

/-- Take the first free block with room for `size` bytes into use: the block, and the list
afterwards. -/
inductive Taken (size : Nat) : List Block → Block → List Block → Prop where
  | mk {xs ys : List Block} {b : Block} : b.Fits size → (∀ x ∈ xs, ¬x.Fits size) →
      Taken size (xs ++ b :: ys) b (xs ++ (Block.cut ⟨b.addr, b.size, true⟩ size ++ ys))

/-! ## Cutting -/

variable {size : Nat}

theorem Block.cut_cases (b : Block) (size : Nat) :
    b.cut size = [b] ∨ size + 64 < b.size ∧
      b.cut size = [⟨b.addr, size, b.used⟩, ⟨b.memory + size, b.size - (size + 32), false⟩] := by
  unfold Block.cut
  split_ifs with h
  · exact .inr ⟨h, rfl⟩
  · exact .inl rfl

/-- The parts of a block fill its place. -/
theorem placed_cut {R : Nat → Nat → Prop} (hR : ∀ x, R x x) {t : Block} (haddr : t.addr = b.addr)
    (hsize : t.size = b.size) (h : Placed R Block.addr Block.stop lo (xs ++ b :: ys) hi) :
    Placed R Block.addr Block.stop lo (xs ++ (t.cut size ++ ys)) hi := by
  have hstop : t.stop = b.stop := by simp only [Block.stop, haddr, hsize]
  obtain ⟨hxs, hys⟩ := Placed.append_cons_iff.mp h
  rcases t.cut_cases size with hcut | ⟨hlt, hcut⟩
  · rw [hcut, List.singleton_append]
    refine Placed.append_cons_iff.mpr ?_
    rw [haddr, hstop]
    exact ⟨hxs, hys⟩
  · rw [hcut]
    refine Placed.append_cons_iff.mpr ⟨by rwa [← haddr] at hxs, hR _, ?_⟩
    have hrest : t.memory + size + 32 + (t.size - (size + 32)) = b.stop := by
      simp only [Block.memory, Block.stop, haddr, hsize] at hlt ⊢
      omega
    rw [Block.stop_mk, hrest]
    exact hys

theorem Taken.mem {bs' : List Block} (h : Taken size bs b bs') : b ∈ bs ∧ b.Fits size := by
  obtain ⟨hfits, -⟩ := h
  exact ⟨by simp, hfits⟩

theorem Taken.arena {bs' : List Block} (h : Taken size bs b bs') (ha : Arena lo bs hi) : Arena lo bs' hi := by
  obtain ⟨-, -⟩ := h
  exact placed_cut (b := b) le_refl rfl rfl ha

theorem Taken.tiles {bs' : List Block} (h : Taken size bs b bs') (ht : Tiles lo bs hi) : Tiles lo bs' hi := by
  obtain ⟨-, -⟩ := h
  exact placed_cut (b := b) (fun _ => rfl) rfl rfl ht

/-- What is cut off is free, and comes behind a used block. -/
theorem mem_cut {b c : Block} (h : c ∈ b.cut size) :
    c.addr = b.addr ∧ c.used = b.used ∨ b.memory + size ≤ c.addr ∧ c.used = false := by
  rcases b.cut_cases size with hcut | ⟨hlt, hcut⟩ <;> rw [hcut] at h <;>
    simp only [List.mem_cons, List.not_mem_nil, or_false] at h
  · subst h
    exact .inl ⟨rfl, rfl⟩
  · rcases h with rfl | rfl
    · exact .inl ⟨rfl, rfl⟩
    · exact .inr ⟨le_rfl, rfl⟩

theorem Taken.aligned {bs' : List Block} (h : Taken size bs b bs') (ha : Aligned bs)
    (hsize : size % 16 = 0) : Aligned bs' := by
  obtain ⟨-, -⟩ := h
  intro c hc
  simp only [List.mem_append] at hc
  rcases hc with hc | hc | hc
  · exact ha c (by simp [hc])
  · have hb := ha b (by simp)
    rcases Block.cut_cases ⟨b.addr, b.size, true⟩ size with hcut | ⟨-, hcut⟩ <;> rw [hcut] at hc <;>
      simp only [List.mem_cons, List.not_mem_nil, or_false] at hc
    · subst hc
      exact hb
    · rcases hc with rfl | rfl
      · exact hb
      · simp only [Block.memory]
        omega
  · exact ha c (by simp [hc])

/-- The block that is taken has room, and the used blocks are the old ones and this one. -/
theorem Taken.used {bs' : List Block} (h : Taken size bs b bs') :
    (∃ c ∈ bs', c.addr = b.addr ∧ c.used = true ∧ size ≤ c.size ∧ c.size ≤ b.size) ∧
      (∀ c ∈ bs, c.used = true → c ∈ bs') ∧
      ∀ c ∈ bs', c.used = true → c.addr = b.addr ∨ c ∈ bs := by
  obtain ⟨hfits, -⟩ := h
  refine ⟨?_, fun c hc hused => ?_, fun c hc hused => ?_⟩
  · rcases Block.cut_cases ⟨b.addr, b.size, true⟩ size with hcut | ⟨hlt, hcut⟩ <;> rw [hcut]
    · exact ⟨⟨b.addr, b.size, true⟩, by simp, rfl, rfl, hfits.2, le_rfl⟩
    · exact ⟨⟨b.addr, size, true⟩, by simp, rfl, rfl, le_rfl, by simp only at hlt ⊢; omega⟩
  · simp only [List.mem_append, List.mem_cons] at hc ⊢
    rcases hc with hc | rfl | hc
    · exact .inl hc
    · rw [hfits.1] at hused
      cases hused
    · exact .inr (.inr hc)
  · simp only [List.mem_append, List.mem_cons] at hc ⊢
    rcases hc with hc | hc | hc
    · exact .inr (.inl hc)
    · rcases mem_cut hc with ⟨haddr, -⟩ | ⟨-, hfree⟩
      · exact .inl haddr
      · rw [hfree] at hused
        cases hused
    · exact .inr (.inr (.inr hc))

end KoalemOS.Heap
