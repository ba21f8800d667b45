import KoalemOS.Heap.State

/-!
# What `kfree` does to the list of blocks

A block that is freed is merged with free neighbours (`Joined`); when it is the last one, the
heap may end at the next page boundary (`Trimmed`).

- the blocks fill the heap again, unless the last header starts 16 bytes before a page
  boundary (`Trimmed.tiles`)
- a free block next to another one does not come about (`Joined.noTwoFree`)
- the other used blocks stay (`Joined.used`, `Trimmed.used`)
-/

namespace KoalemOS.Heap

open KoalemOS.Library KoalemOS.Library.LinkedList

variable {R : Nat → Nat → Prop} {b c d : Block} {bs bs' xs xs' ys ys' : List Block} {lo hi e e' : Nat}

/-! ## Neighbours -/

/-- The block `b` of `bs` has been freed and merged with its neighbours, into `c`. -/
inductive Joined : List Block → Block → List Block → Block → List Block → Prop where
  | mk {b b₁ c : Block} {xs xs' ys ys' : List Block} : LastMerged xs ⟨b.addr, b.size, false⟩ xs' b₁ →
      NextMerged b₁ ys c ys' → Joined (xs ++ b :: ys) b xs' c ys'

theorem LastMerged.eq_keep {p : Block} (h : LastMerged (xs ++ [p]) b xs' c) (hp : p.used = true) :
    xs' = xs ++ [p] ∧ c = b := by
  generalize hxs : xs ++ [p] = zs at h
  cases h with
  | keep _ => exact ⟨rfl, rfl⟩
  | @merge ws q _ hfree _ =>
    obtain ⟨-, hpq⟩ := List.append_inj' hxs rfl
    rw [(List.cons.inj hpq).1, hfree] at hp
    cases hp

theorem LastMerged.eq_merge {p : Block} (h : LastMerged (xs ++ [p]) b xs' c) (hp : p.used = false)
    (hadj : p.stop = b.addr) : xs' = xs ∧ c = ⟨p.addr, p.size + (32 + b.size), false⟩ := by
  generalize hxs : xs ++ [p] = zs at h
  cases h with
  | keep hkeep => exact absurd hadj (hkeep xs p hxs.symm hp)
  | @merge ws q _ _ _ =>
    obtain ⟨hws, hpq⟩ := List.append_inj' hxs rfl
    rw [hws, (List.cons.inj hpq).1]
    exact ⟨rfl, rfl⟩

theorem NextMerged.eq_keep {n : Block} (h : NextMerged b (n :: ys) c ys') (hn : n.used = true) :
    c = b ∧ ys' = n :: ys := by
  cases h with
  | keep _ => exact ⟨rfl, rfl⟩
  | merge hfree _ =>
    rw [hfree] at hn
    cases hn

theorem NextMerged.eq_nil (h : NextMerged b [] c ys') : c = b ∧ ys' = [] := by
  cases h
  exact ⟨rfl, rfl⟩

theorem LastMerged.unique (h : LastMerged xs b xs' c) {xs'' : List Block} (h' : LastMerged xs b xs'' d) :
    xs' = xs'' ∧ c = d := by
  cases h with
  | @merge ps p _ hfree hadj =>
    obtain ⟨rfl, rfl⟩ := h'.eq_merge hfree hadj
    exact ⟨rfl, rfl⟩
  | keep hkeep =>
    cases h' with
    | merge hfree hadj => exact absurd hadj (hkeep _ _ rfl hfree)
    | keep _ => exact ⟨rfl, rfl⟩

theorem NextMerged.unique (h : NextMerged b ys c ys') {ys'' : List Block} (h' : NextMerged b ys d ys'') :
    c = d ∧ ys' = ys'' := by
  cases h with
  | merge hfree hadj =>
    cases h' with
    | merge _ _ => exact ⟨rfl, rfl⟩
    | keep hkeep => exact absurd hadj (hkeep _ _ rfl hfree)
  | keep hkeep =>
    cases h' with
    | merge hfree hadj => exact absurd hadj (hkeep _ _ rfl hfree)
    | keep _ => exact ⟨rfl, rfl⟩

/-- Freeing a block has one result. -/
theorem Joined.unique (h : Joined bs b xs c ys) (h' : Joined bs b xs' d ys') (hn : bs.Nodup) :
    xs = xs' ∧ c = d ∧ ys = ys' := by
  generalize hbs : bs = bs₀ at h'
  cases h with
  | @mk _ b₁ _ ps _ qs _ hlast hnext =>
    cases h' with
    | @mk _ b₂ _ ps' _ qs' _ hlast' hnext' =>
      -- the block is in the list once
      have honce := (List.nodup_cons.mp (List.nodup_middle.mp hn)).1
      obtain ⟨rfl, -, rfl⟩ := (List.append_cons_inj_of_notMem (fun hmem => honce (List.mem_append_left _ hmem))
        fun hmem => honce (List.mem_append_right _ hmem)).mp hbs
      obtain ⟨rfl, rfl⟩ := hlast.unique hlast'
      obtain ⟨rfl, rfl⟩ := hnext.unique hnext'
      exact ⟨rfl, rfl, rfl⟩

/-- Merging with the block before keeps the blocks in their places. -/
theorem LastMerged.placed (h : LastMerged xs b xs' c)
    (hp : Placed R Block.addr Block.stop lo (xs ++ b :: ys) hi) :
    Placed R Block.addr Block.stop lo (xs' ++ c :: ys) hi := by
  cases h with
  | keep _ => exact hp
  | @merge _ p _ hfree hadj =>
    rw [List.append_assoc, List.singleton_append] at hp
    obtain ⟨hxs, -, hys⟩ := Placed.append_cons_iff.mp hp
    refine Placed.append_cons_iff.mpr ⟨hxs, ?_⟩
    have hstop : Block.stop ⟨p.addr, p.size + (32 + b.size), false⟩ = b.stop := by
      simp only [Block.stop] at hadj ⊢
      omega
    rwa [hstop]

theorem NextMerged.placed (h : NextMerged b ys c ys')
    (hp : Placed R Block.addr Block.stop lo (xs ++ b :: ys) hi) :
    Placed R Block.addr Block.stop lo (xs ++ c :: ys') hi := by
  cases h with
  | keep _ => exact hp
  | @merge n _ hfree hadj =>
    obtain ⟨hxs, -, hys⟩ := Placed.append_cons_iff.mp hp
    refine Placed.append_cons_iff.mpr ⟨hxs, ?_⟩
    have hstop : Block.stop ⟨b.addr, b.size + (32 + n.size), b.used⟩ = n.stop := by
      simp only [Block.stop] at hadj ⊢
      omega
    rwa [hstop]

theorem Joined.placed (h : Joined bs b xs c ys) (hp : Placed R Block.addr Block.stop lo bs hi) :
    Placed R Block.addr Block.stop lo (xs ++ c :: ys) hi := by
  obtain ⟨hlast, hnext⟩ := h
  refine hnext.placed (hlast.placed ?_)
  obtain ⟨hxs, hys⟩ := Placed.append_cons_iff.mp hp
  exact Placed.append_cons_iff.mpr ⟨hxs, hys⟩

/-- What is before and behind the merged block is a part of the list before; blocks that are
merged were free. -/
theorem Joined.parts (h : Joined bs b xs' c ys') : ∃ xs ys ps ns, bs = xs ++ b :: ys ∧ xs = xs' ++ ps ∧
    ys = ns ++ ys' ∧ (∀ d ∈ ps ++ ns, d.used = false) ∧ c.used = false ∧
    c.addr = headOr Block.addr b.addr ps ∧ (ps ≠ [] ∨ ns ≠ [] → 32 ≤ c.size) ∧
    (ps = [] → ns = [] → c.size = b.size) := by
  obtain ⟨hlast, hnext⟩ := h
  rename_i b₁ xs ys
  have hl : ∃ ps, xs = xs' ++ ps ∧ (∀ d ∈ ps, d.used = false) ∧ b₁.used = false ∧
      b₁.addr = headOr Block.addr b.addr ps ∧ (ps ≠ [] → 32 ≤ b₁.size) ∧ (ps = [] → b₁.size = b.size) := by
    cases hlast with
    | keep _ => exact ⟨[], by simp⟩
    | @merge _ p _ hfree _ =>
      refine ⟨[p], rfl, by simpa using hfree, rfl, rfl, fun _ => ?_, by simp⟩
      simp only
      omega
  obtain ⟨ps, hxs, hps, hfree₁, haddr₁, hbig₁, hsize₁⟩ := hl
  cases hnext with
  | keep _ =>
    exact ⟨xs, ys', ps, [], rfl, hxs, rfl, by simpa using hps, hfree₁, haddr₁, by simpa using hbig₁,
      fun h _ => hsize₁ h⟩
  | @merge n _ hfree _ =>
    refine ⟨xs, n :: ys', ps, [n], rfl, hxs, rfl, ?_, hfree₁, haddr₁, fun _ => ?_, by simp⟩
    · intro d hd
      rcases List.mem_append.mp hd with hd | hd
      · exact hps d hd
      · rw [List.mem_singleton.mp hd]
        exact hfree
    · simp only
      omega

/-- The merged block is free. -/
theorem Joined.free (h : Joined bs b xs c ys) : c.used = false := by
  obtain ⟨-, -, -, -, -, -, -, -, hc, -⟩ := h.parts
  exact hc

theorem Joined.mem (h : Joined bs b xs c ys) : b ∈ bs ∧ ∀ d ∈ xs ++ ys, d ∈ bs := by
  obtain ⟨xs₀, ys₀, ps, ns, rfl, rfl, rfl, -⟩ := h.parts
  refine ⟨by simp, fun d hd => ?_⟩
  simp only [List.mem_append, List.mem_cons] at hd ⊢
  tauto

/-- Used blocks other than the one that is freed stay. -/
theorem Joined.used (h : Joined bs b xs c ys) {d : Block} (hd : d ∈ bs) (hne : d ≠ b) (hused : d.used = true) :
    d ∈ xs ++ ys := by
  obtain ⟨xs₀, ys₀, ps, ns, rfl, rfl, rfl, hfree, -⟩ := h.parts
  have hmerged : d ∉ ps ++ ns := fun hc => by
    rw [hfree d hc] at hused
    cases hused
  simp only [List.mem_append, List.mem_cons] at hd hmerged ⊢
  tauto

/-- The block that is freed is none of the blocks around the merged one. -/
theorem Joined.ne (h : Joined bs b xs c ys) (ha : Arena lo bs hi) {d : Block} (hd : d ∈ xs ++ ys) : d ≠ b := by
  obtain ⟨xs₀, ys₀, ps, ns, rfl, rfl, rfl, -⟩ := h.parts
  obtain ⟨hbefore, hbehind⟩ := ha.around
  rintro rfl
  rcases List.mem_append.mp hd with hd | hd
  · have hstop := hbefore d (List.mem_append_left _ hd)
    simp only [Block.stop] at hstop
    omega
  · have hstop := hbehind d (List.mem_append_right _ hd)
    simp only [Block.stop] at hstop
    omega

theorem Joined.headOr_eq (h : Joined bs b xs c ys) :
    headOr Block.addr 0 (xs ++ c :: ys) = headOr Block.addr 0 bs := by
  obtain ⟨xs₀, ys₀, ps, ns, rfl, rfl, rfl, -, -, haddr, -⟩ := h.parts
  simp [haddr]

/-- A merged block begins where the one that is freed does, or before. -/
theorem Joined.addr_le (h : Joined bs b xs c ys) (ha : Arena lo bs hi) : c.addr ≤ b.addr := by
  obtain ⟨xs₀, ys₀, ps, ns, rfl, rfl, rfl, -, -, haddr, -⟩ := h.parts
  cases ps with
  | nil => exact haddr.le
  | cons p ps =>
    have hstop := ha.around.1 p (by simp)
    rw [headOr_cons] at haddr
    simp only [Block.stop] at hstop
    omega

theorem Joined.aligned (h : Joined bs b xs c ys) (ha : Aligned bs) : Aligned (xs ++ c :: ys) := by
  have hmem := h.mem
  obtain ⟨xs₀, ys₀, ps, ns, rfl, rfl, rfl, -, -, haddr, -⟩ := h.parts
  intro d hd
  simp only [List.mem_append, List.mem_cons] at hd
  rcases hd with hd | rfl | hd
  · exact ha d (hmem.2 d (List.mem_append_left _ hd))
  · cases ps with
    | nil =>
      rw [haddr]
      exact ha b hmem.1
    | cons p ps =>
      rw [haddr]
      exact ha p (by simp)
  · exact ha d (hmem.2 d (List.mem_append_right _ hd))

/-- The last block leaves room for a header if it did before. -/
theorem Joined.roomAtEnd (h : Joined bs b xs c ys) (hr : RoomAtEnd bs) : RoomAtEnd (xs ++ c :: ys) := by
  obtain ⟨xs₀, ys₀, ps, ns, rfl, rfl, rfl, -, -, -, hbig, hsame⟩ := h.parts
  by_cases hys : ys = []
  · subst hys
    rw [roomAtEnd_append (by simp), roomAtEnd_singleton]
    by_cases hmerged : ps ≠ [] ∨ ns ≠ []
    · exact hbig hmerged
    · rw [not_or, not_not, not_not] at hmerged
      obtain ⟨rfl, rfl⟩ := hmerged
      rw [hsame rfl rfl]
      rwa [List.nil_append, roomAtEnd_append (by simp), roomAtEnd_singleton] at hr
  · rw [← List.singleton_append, ← List.append_assoc, roomAtEnd_append hys]
    rwa [show xs ++ ps ++ b :: (ns ++ ys) = (xs ++ ps ++ b :: ns) ++ ys by simp, roomAtEnd_append hys] at hr

/-! ## No two free blocks -/

theorem noTwoFree_around (hc : c.used = false) : NoTwoFree (xs ++ c :: ys) ↔
    NoTwoFree xs ∧ NoTwoFree ys ∧ (∀ x ∈ xs.getLast?, x.used = true) ∧ ∀ y ∈ ys.head?, y.used = true := by
  unfold NoTwoFree
  rw [List.isChain_append, List.isChain_cons]
  simp only [hc, List.head?_cons, Option.mem_def, Option.some.injEq, forall_eq', and_true, true_and,
    Bool.not_eq_false]
  tauto

theorem LastMerged.noTwoFree (h : LastMerged xs b xs' c) (ht : Tiles lo (xs ++ b :: ys) hi)
    (hn : NoTwoFree xs) : NoTwoFree xs' ∧ ∀ x ∈ xs'.getLast?, x.used = true := by
  cases h with
  | keep hkeep =>
    refine ⟨hn, fun x hx => ?_⟩
    obtain ⟨ps, rfl⟩ := List.getLast?_eq_some_iff.mp hx
    rw [List.append_assoc, List.singleton_append] at ht
    have hadj : x.stop = b.addr := (Placed.append_cons_iff.mp ht).2.1
    by_contra hfree
    exact hkeep ps x rfl (by simpa using hfree) hadj
  | @merge _ p _ hfree _ =>
    obtain ⟨hxs, -, hlast, -⟩ := (noTwoFree_around hfree).mp hn
    exact ⟨hxs, hlast⟩

theorem NextMerged.noTwoFree (h : NextMerged b ys c ys') (ht : Tiles lo (xs ++ b :: ys) hi)
    (hn : NoTwoFree ys) : NoTwoFree ys' ∧ ∀ y ∈ ys'.head?, y.used = true := by
  cases h with
  | keep hkeep =>
    refine ⟨hn, fun y hy => ?_⟩
    obtain ⟨ns, rfl⟩ := List.head?_eq_some_iff.mp hy
    have hadj : b.stop = y.addr := (Placed.append_cons_iff.mp ht).2.1
    by_contra hfree
    exact hkeep y ns rfl (by simpa using hfree) hadj
  | @merge n _ hfree _ =>
    have hn₀ : NoTwoFree ([] ++ n :: _) := hn
    obtain ⟨-, hys, -, hhead⟩ := (noTwoFree_around hfree).mp hn₀
    exact ⟨hys, hhead⟩

/-- In a heap that its blocks fill, no free block is next to the merged one. -/
theorem Joined.noTwoFree (h : Joined bs b xs' c ys') (ht : Tiles lo bs hi) (hn : NoTwoFree bs) :
    NoTwoFree (xs' ++ c :: ys') := by
  have hfree := h.free
  obtain ⟨hlast, hnext⟩ := h
  rename_i b₁ xs ys
  have ht₀ : Tiles lo (xs ++ ⟨b.addr, b.size, false⟩ :: ys) hi := by
    obtain ⟨hbefore, hbehind⟩ := Placed.append_cons_iff.mp ht
    exact Placed.append_cons_iff.mpr ⟨hbefore, hbehind⟩
  obtain ⟨hxs, hrest, -⟩ := List.isChain_append.mp hn
  obtain ⟨hxs', hlast'⟩ := hlast.noTwoFree ht₀ hxs
  obtain ⟨hys', hhead'⟩ := hnext.noTwoFree (hlast.placed ht₀) hrest.tail
  exact (noTwoFree_around hfree).mpr ⟨hxs', hys', hlast', hhead'⟩

/-! ## The end of the heap -/

/-- The last block is dropped, or it ends where the heap will end. -/
inductive Ended (newEnd : Nat) : List Block → Block → List Block → Prop where
  | drop {xs : List Block} {b : Block} : b.addr = newEnd → Ended newEnd xs b xs
  | resize {xs : List Block} {b : Block} : b.addr ≠ newEnd →
      Ended newEnd xs b (xs ++ [⟨b.addr, sub64 (sub64 newEnd b.addr) 32, b.used⟩])

/-- The merged block is the last of several, and leaves room at the end `e` of the heap. -/
structure Trims (e : Nat) (xs : List Block) (b : Block) (ys : List Block) : Prop where
  last : ys = []
  several : xs ≠ []
  room : pageUp (b.addr + 64) ≠ e

/-- With a used block behind the one that is freed the heap is not trimmed. -/
theorem Joined.not_trims (h : Joined bs b xs c ys) (ha : Arena lo bs hi) (hd : d ∈ bs) (hused : d.used = true)
    (hlt : b.addr < d.addr) : ¬Trims e xs c ys := by
  intro htrims
  have hne : d ≠ b := by
    rintro rfl
    exact Nat.lt_irrefl _ hlt
  have hmem := h.used hd hne hused
  rw [htrims.last, List.append_nil] at hmem
  have hstop := (Arena.around (h.placed ha)).1 d hmem
  have hle := h.addr_le ha
  simp only [Block.stop] at hstop
  omega

/-- The blocks and the end of the heap, after it may have been trimmed. -/
inductive Trimmed (e : Nat) (xs : List Block) (b : Block) (ys : List Block) : List Block → Nat → Prop where
  | keep : ¬Trims e xs b ys → Trimmed e xs b ys (xs ++ b :: ys) e
  | trim {bs' : List Block} : Trims e xs b ys → Ended (pageUp b.addr) xs b bs' →
      Trimmed e xs b ys bs' (pageUp b.addr)

theorem Trimmed.eq_keep (h : Trimmed e xs c ys bs' e') (hno : ¬Trims e xs c ys) :
    bs' = xs ++ c :: ys ∧ e' = e := by
  cases h with
  | keep _ => exact ⟨rfl, rfl⟩
  | trim htrims _ => exact absurd htrims hno

theorem Trimmed.ended (h : Trimmed e xs c ys bs' e') (htrims : Trims e xs c ys) :
    Ended e' xs c bs' ∧ e' = pageUp c.addr := by
  cases h with
  | keep hno => exact absurd htrims hno
  | trim _ hended => exact ⟨hended, rfl⟩

theorem Ended.headOr_eq (h : Ended e xs c bs') (hxs : xs ≠ []) :
    headOr Block.addr 0 bs' = headOr Block.addr 0 (xs ++ c :: ys) := by
  obtain ⟨x, xs, rfl⟩ := List.exists_cons_of_ne_nil hxs
  cases h with
  | drop _ => simp
  | resize _ => simp

theorem Ended.free (h : Ended e xs c bs') (hc : c.used = false) (hd : d.used = true) :
    d ∈ bs' ↔ d ∈ xs := by
  cases h with
  | drop _ => rfl
  | resize _ =>
    rw [List.mem_append, List.mem_singleton, or_iff_left]
    rintro rfl
    rw [hc] at hd
    cases hd

/-- The used blocks are those next to the merged one. -/
theorem Trimmed.used (h : Trimmed e xs c ys bs' e') (hc : c.used = false) (hd : d.used = true) :
    d ∈ bs' ↔ d ∈ xs ++ ys := by
  cases h with
  | keep _ =>
    have hne : d ≠ c := by
      rintro rfl
      rw [hc] at hd
      cases hd
    simp [hne]
  | trim htrims hended =>
    rw [hended.free hc hd, htrims.last, List.append_nil]

/-- Every block starts where one did before. -/
theorem Trimmed.addr (h : Trimmed e xs c ys bs' e') (hd : d ∈ bs') : ∃ d' ∈ xs ++ c :: ys, d'.addr = d.addr := by
  cases h with
  | keep _ => exact ⟨d, hd, rfl⟩
  | trim _ hended =>
    cases hended with
    | drop _ => exact ⟨d, List.mem_append_left _ hd, rfl⟩
    | resize _ =>
      rcases List.mem_append.mp hd with hd | hd
      · exact ⟨d, List.mem_append_left _ hd, rfl⟩
      · rw [List.mem_singleton.mp hd]
        exact ⟨c, by simp, rfl⟩

theorem Trimmed.aligned (h : Trimmed e xs c ys bs' e') (ha : Aligned (xs ++ c :: ys)) : Aligned bs' := by
  intro d hd
  obtain ⟨d', hd', haddr⟩ := h.addr hd
  rw [← haddr]
  exact ha d' hd'

theorem Trimmed.headOr_eq (h : Trimmed e xs c ys bs' e') :
    headOr Block.addr 0 bs' = headOr Block.addr 0 (xs ++ c :: ys) := by
  cases h with
  | keep _ => rfl
  | trim htrims hended => exact hended.headOr_eq htrims.several

theorem Trimmed.nonempty (h : Trimmed e xs c ys bs' e') : bs' ≠ [] := by
  cases h with
  | keep _ => simp
  | trim htrims hended =>
    cases hended with
    | drop _ => exact htrims.several
    | resize _ => simp

theorem Trimmed.noTwoFree (h : Trimmed e xs c ys bs' e') (hc : c.used = false)
    (hn : NoTwoFree (xs ++ c :: ys)) : NoTwoFree bs' := by
  cases h with
  | keep _ => exact hn
  | trim htrims hended =>
    rw [noTwoFree_around hc] at hn
    cases hended with
    | drop _ => exact hn.1
    | resize _ =>
      generalize sub64 (sub64 (pageUp c.addr) c.addr) 32 = n
      have hfree : Block.used ⟨c.addr, n, c.used⟩ = false := hc
      exact (noTwoFree_around hfree).mpr ⟨hn.1, List.isChain_nil, hn.2.2.1, by simp⟩

/-- A header below the end of the heap is below the new one, unless it crosses a page. -/
theorem pageUp_bounds {a : Nat} (he : e % 4096 = 0) (hle : a + 32 ≤ e) : a ≤ pageUp a ∧ pageUp a ≤ e := by
  unfold pageUp
  omega

theorem Trimmed.end_le (h : Trimmed e xs c ys bs' e') (he : e % 4096 = 0) (hle : c.addr + 32 ≤ e) :
    e' ≤ e ∧ e' % 4096 = 0 := by
  cases h with
  | keep _ => exact ⟨le_rfl, he⟩
  | trim _ _ => exact ⟨(pageUp_bounds he hle).2, pageUp_mod _⟩

/-- The size of a last block that ends at the next page boundary. -/
theorem endSize {a : Nat} (ha : a % 16 = 0) (hne : a ≠ pageUp a) (hok : a % 4096 ≠ 4080)
    (hlt : a + 4096 < 2 ^ 64) : a + 32 + sub64 (sub64 (pageUp a) a) 32 = pageUp a := by
  have hle : a + 32 ≤ pageUp a := by
    unfold pageUp at hne ⊢
    omega
  have hup : pageUp a < 2 ^ 64 := by
    unfold pageUp
    omega
  rw [sub64_of_le (by omega) hup, sub64_of_le (by omega) (by omega)]
  omega

/-- The last block ends where the heap does, unless its header crosses the end of a page. -/
theorem Trimmed.placed {R : Nat → Nat → Prop} (h : Trimmed e xs c ys bs' e') (hR : ∀ x, R x x)
    (hp : Placed R Block.addr Block.stop lo (xs ++ c :: ys) e) (ha : c.addr % 16 = 0) (hlt : c.addr + 4096 < 2 ^ 64)
    (hok : Trims e xs c ys → c.addr % 4096 ≠ 4080) : Placed R Block.addr Block.stop lo bs' e' := by
  cases h with
  | keep _ => exact hp
  | trim htrims hended =>
    have hxs := (Placed.append_cons_iff.mp hp).1
    cases hended with
    | drop heq =>
      rw [← heq]
      exact hxs
    | resize hne =>
      refine Placed.append_cons_iff.mpr ⟨hxs, ?_⟩
      have hend := endSize ha hne (hok htrims) hlt
      rw [Placed.nil_iff, Block.stop_mk, hend]
      exact hR _

/-- **The blocks fill the heap again**, unless the last header crosses the end of a page. -/
theorem Trimmed.tiles (h : Trimmed e xs c ys bs' e') (ht : Tiles lo (xs ++ c :: ys) e)
    (ha : c.addr % 16 = 0) (hlt : c.addr + 4096 < 2 ^ 64)
    (hok : Trims e xs c ys → c.addr % 4096 ≠ 4080) : Tiles lo bs' e' :=
  h.placed (fun _ => rfl) ht ha hlt hok

/-- The frames that are given back, none or those of a heap that is trimmed. -/
theorem Trimmed.consecutive {F : Nat → Nat} (h : Trimmed e xs c ys bs' e')
    (hok : Trims e xs c ys → Consecutive F (pageUp c.addr) ((e - pageUp c.addr) / 4096)) :
    Consecutive F e' ((e - e') / 4096) := by
  cases h with
  | keep _ =>
    rw [Nat.sub_self]
    exact fun i hi => absurd hi (Nat.not_lt_zero i)
  | trim htrims _ => exact hok htrims

end KoalemOS.Heap
