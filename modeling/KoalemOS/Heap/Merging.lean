import KoalemOS.Heap.Entries

/-!
# Entries that are merged

The parts of `kfree` and `krealloc` that take entries out of the list: an entry is linked to
the one behind its neighbours, or into the entry before it.
-/

namespace KoalemOS.Heap

open KoalemOS.Library KoalemOS.Library.LinkedList KoalemOS.Mmap KoalemOS.Paging

variable {L : Layout} {e : Nat} {F : Nat → Nat} {K : Nat → Prop} {V₀ : Mem} {s₀ s : Kernel}
  {b c p : Block} {bs xs ys : List Block} {E : Stop → Prop}

/-! ## Entries that are left out -/

theorem Spaced.omit {lo hi : Nat} (mid : List Block) (h : Spaced lo (xs ++ b :: (mid ++ ys)) hi) :
    Spaced lo (xs ++ b :: ys) hi := by
  induction mid with
  | nil => exact h
  | cons m mid ih =>
    refine ih (Placed.append_cons_iff.mpr ?_)
    obtain ⟨hxs, hm, hrest⟩ := Placed.append_cons_iff.mp h
    refine ⟨hxs, hrest.restart (Nat.le_trans (Nat.le_trans hm m.addr_le_memory) hrest.le_headOr)⟩

/-- `linkTo` takes the entries between out of the list. -/
theorem Listed.linkTo (mid : List Block) (h : Listed L e F K V₀ s₀ (xs ++ b :: (mid ++ ys)) s) :
    Outcome.wp E (linkTo b.addr (headOr Block.addr 0 ys))
      (fun _ s' => Listed L e F K V₀ s₀ (xs ++ b :: ys) s') s := by
  obtain ⟨H, hheld, hlinks⟩ := h.held
  have hspaced := Spaced.omit mid h.spaced
  have hlt : b.addr < 2 ^ 64 := by
    have := h.addr_lt (b := b) (by simp)
    omega
  have hnext : headOr Block.addr 0 ys < 2 ^ 64 := by
    have h' : Listed L e F K V₀ s₀ ((xs ++ b :: mid) ++ ys) s := by simpa using h
    exact h'.next_lt
  obtain ⟨hxb, hyb⟩ := hspaced.ne_around
  obtain ⟨hxs, hb, hrest⟩ := chain_append.mp hlinks
  obtain ⟨-, hys⟩ := chain_append.mp hrest
  have hmem : b.addr ∈ addrs (xs ++ b :: (mid ++ ys)) := by simp
  refine Outcome.wp_bind (Outcome.wp_mono (hheld.setNext hmem hnext) fun _ s₁ h₁ => ?_)
  rw [hb, Node.withNext_mk] at h₁
  simp only [lastOr_append, lastOr_cons] at h₁
  refine Outcome.wp_mono (h₁.linkBack hmem (x := b.addr) ?_ ?_ ?_ ?_ hlt) fun _ s₂ h₂ => ?_
  · rw [Function.update_self]
  · exact hys.congr fun y hy => Function.update_of_ne (hyb y hy) _ _
  · intro y hy
    simp only [addrs, List.map_append, List.map_cons, List.mem_append, List.mem_cons]
    exact .inr (.inr (.inr (List.mem_map_of_mem hy)))
  · exact Spaced.nodup hspaced.tail
  obtain ⟨H₂, h₂, hys₂, hother⟩ := h₂
  refine Listed.of_parts h₂ (fun a ha => ?_) (hxs.congr fun x hx => ?_) ?_ hys₂ hspaced
  · simp only [addrs, List.map_append, List.map_cons, List.mem_append, List.mem_cons] at ha ⊢
    tauto
  · rw [hother, Function.update_of_ne (hxb x hx)]
    intro y hy
    have hlt := (Spaced.around hspaced).1 x hx
    have hgt := (Spaced.around hspaced).2 y hy
    omega
  · rw [hother b.addr fun y hy => (hyb y hy).symm, Function.update_self]

/-- `unlinkEntry` takes the entry behind another one out of the list. -/
theorem Listed.unlinkEntry (h : Listed L e F K V₀ s₀ (xs ++ p :: b :: ys) s) :
    Outcome.wp E (unlinkEntry b.addr p.addr)
      (fun _ s' => Listed L e F K V₀ s₀ (xs ++ p :: ys) s') s := by
  obtain ⟨H, hheld, hlinks⟩ := h.held
  have hspaced : Spaced L.kernelHeapStart (xs ++ p :: ys) e := Spaced.omit [b] h.spaced
  have hlt : p.addr < 2 ^ 64 := by
    have := h.addr_lt (b := p) (by simp)
    omega
  have hnext : headOr Block.addr 0 ys < 2 ^ 64 := by
    have h' : Listed L e F K V₀ s₀ ((xs ++ [p, b]) ++ ys) s := by simpa using h
    exact h'.next_lt
  obtain ⟨hxp, hyp⟩ := hspaced.ne_around
  have hspaced' : Spaced L.kernelHeapStart ((xs ++ [p]) ++ b :: ys) e := by simpa using h.spaced
  obtain ⟨-, hyb⟩ := hspaced'.ne_around
  have hpb : p.addr ≠ b.addr := (h.spaced.ne_around.2 b List.mem_cons_self).symm
  obtain ⟨hxs, hp, hb, hys⟩ := chain_append.mp hlinks
  have hbmem : b.addr ∈ addrs (xs ++ p :: b :: ys) := by simp
  have hpmem : p.addr ∈ addrs (xs ++ p :: b :: ys) := by simp
  simp only [lastOr_append, lastOr_cons] at hheld
  refine Outcome.wp_bind (Outcome.wp_mono (hheld.linkBack hbmem (by rw [hb]) hys ?_ ?_ hlt)
    fun _ s₁ h₁ => ?_)
  · intro y hy
    simp only [addrs, List.map_append, List.map_cons, List.mem_append, List.mem_cons]
    exact .inr (.inr (.inr (List.mem_map_of_mem hy)))
  · exact Spaced.nodup hspaced.tail
  obtain ⟨H₁, h₁, hys₁, hother⟩ := h₁
  refine Outcome.wp_bind_returns (h₁.entryNext hbmem) ?_
  rw [hother b.addr fun y hy => (hyb y hy).symm, hb]
  refine Outcome.wp_mono (h₁.setNext hpmem hnext) fun _ s₂ h₂ => ?_
  refine Listed.of_parts h₂ (fun a ha => ?_) (hxs.congr fun x hx => ?_) ?_
    (hys₁.congr fun y hy => Function.update_of_ne (hyp y hy) _ _) hspaced
  · simp only [addrs, List.map_append, List.map_cons, List.mem_append, List.mem_cons] at ha ⊢
    tauto
  · rw [Function.update_of_ne (hxp x hx), hother]
    intro y hy
    have hlt := (Spaced.around hspaced).1 x hx
    have hgt := (Spaced.around hspaced).2 y hy
    omega
  · rw [Function.update_self, hother p.addr fun y hy => (hyp y hy).symm, hp, Node.withNext_mk]

/-! ## Neighbours that join -/

theorem canMerge_returns {candidate first : Nat} (second : Nat) {u : Bool} {size : Nat}
    (hused : (entryUsed candidate).Returns s u s) (hsize : (entrySize first).Returns s size s)
    (hlt : first + 32 + size < 2 ^ 64) :
    ∃ r, (canMerge candidate first second).Returns s r s ∧
      (r = true ↔ u = false ∧ first + 32 + size = second) := by
  unfold Heap.canMerge
  cases u with
  | true => exact ⟨false, hused.bind (Outcome.returns_pure _ s), by simp⟩
  | false =>
    refine ⟨_, hused.bind (hsize.bind (Outcome.returns_pure _ s)), ?_⟩
    have hmem : memoryOf first = first + 32 := wrap_of_lt (by simp only [sizeofHeapEntry]; omega)
    rw [hmem, wrap_of_lt hlt]
    simp

/-- `mergeLast` -/
theorem Listed.mergeLast (h : Listed L e F K V₀ s₀ (xs ++ b :: ys) s) (hb : b.stop < 2 ^ 64)
    (hxs : ∀ x ∈ xs, x.stop < 2 ^ 64) :
    Outcome.wp E (mergeLast b.addr) (fun a s' => ∃ xs' b', LastMerged xs b xs' b' ∧ a = b'.addr ∧
      Listed L e F K V₀ s₀ (xs' ++ b' :: ys) s') s := by
  refine Outcome.wp_bind_returns h.entryLast ?_
  rcases List.eq_nil_or_concat' xs with rfl | ⟨ps, p, rfl⟩
  · rw [lastOr_nil, if_pos rfl]
    exact Outcome.wp_of_returns (Outcome.returns_pure _ s) ⟨[], b, .keep (by simp), rfl, h⟩
  have hp : Listed L e F K V₀ s₀ (ps ++ p :: (b :: ys)) s := by simpa using h
  have hpne : p.addr ≠ 0 := by
    obtain ⟨H, hheld, -⟩ := hp.held
    exact hheld.ne_zero (by simp)
  rw [lastOr_append, lastOr_cons, lastOr_nil, if_neg hpne]
  have hpstop := hxs p (by simp)
  obtain ⟨r, hr, hjoin⟩ := canMerge_returns b.addr hp.entryUsed hp.entrySize hpstop
  refine Outcome.wp_bind_returns hr ?_
  by_cases hj : p.used = false ∧ p.addr + 32 + p.size = b.addr
  · rw [hjoin.mpr hj, if_pos rfl]
    refine Outcome.wp_bind_returns hp.entrySize ?_
    refine Outcome.wp_bind_returns h.entrySize ?_
    obtain ⟨hfree, hadj⟩ := hj
    simp only [Block.stop] at hb
    rw [wrap_of_lt (show p.size + (32 + b.size) < 2 ^ 64 by omega)]
    refine Outcome.wp_bind (Outcome.wp_mono (hp.setSize (by omega)) fun _ s₁ h₁ => ?_)
    refine Outcome.wp_bind (Outcome.wp_mono h₁.unlinkEntry fun _ s₂ h₂ => ?_)
    refine Outcome.wp_of_returns (Outcome.returns_pure _ s₂) ⟨ps, _, .merge hfree hadj, rfl, ?_⟩
    rwa [← hfree]
  · have hfalse : r = false := by
      rw [← Bool.not_eq_true, hjoin]
      exact hj
    rw [hfalse, if_neg (by decide)]
    refine Outcome.wp_of_returns (Outcome.returns_pure _ s) ⟨ps ++ [p], b, .keep ?_, rfl, h⟩
    intro qs q heq hq hstop
    obtain ⟨-, hpq⟩ := List.append_inj' heq rfl
    obtain rfl := (List.cons.inj hpq).1
    exact hj ⟨hq, hstop⟩

/-- `mergeNext` -/
theorem Listed.mergeNext (h : Listed L e F K V₀ s₀ (xs ++ b :: ys) s) (hb : b.stop < 2 ^ 64)
    (hys : ∀ y ∈ ys, y.stop < 2 ^ 64) :
    Outcome.wp E (mergeNext b.addr) (fun _ s' => ∃ b' ys', NextMerged b ys b' ys' ∧ b'.addr = b.addr ∧
      Listed L e F K V₀ s₀ (xs ++ b' :: ys') s') s := by
  refine Outcome.wp_bind_returns h.entryNext ?_
  cases ys with
  | nil =>
    rw [headOr_nil, if_pos rfl]
    exact Outcome.wp_of_returns (Outcome.returns_pure _ s) ⟨b, [], .keep (by simp), rfl, h⟩
  | cons c ys =>
    have hc : Listed L e F K V₀ s₀ ((xs ++ [b]) ++ c :: ys) s := by simpa using h
    have hcne : c.addr ≠ 0 := by
      obtain ⟨H, hheld, -⟩ := hc.held
      exact hheld.ne_zero (by simp)
    rw [headOr_cons, if_neg hcne]
    obtain ⟨r, hr, hjoin⟩ := canMerge_returns c.addr hc.entryUsed h.entrySize hb
    refine Outcome.wp_bind_returns hr ?_
    by_cases hj : c.used = false ∧ b.addr + 32 + b.size = c.addr
    · rw [hjoin.mpr hj, if_pos rfl]
      refine Outcome.wp_bind_returns h.entrySize ?_
      refine Outcome.wp_bind_returns hc.entrySize ?_
      obtain ⟨hfree, hadj⟩ := hj
      have hcstop := hys c List.mem_cons_self
      simp only [Block.stop] at hcstop
      rw [wrap_of_lt (show b.size + (32 + c.size) < 2 ^ 64 by omega)]
      refine Outcome.wp_bind (Outcome.wp_mono (h.setSize (by omega)) fun _ s₁ h₁ => ?_)
      have hc₁ : Listed L e F K V₀ s₀
          ((xs ++ [⟨b.addr, b.size + (32 + c.size), b.used⟩]) ++ c :: ys) s₁ := by simpa using h₁
      refine Outcome.wp_bind_returns hc₁.entryNext ?_
      refine Outcome.wp_mono (@Listed.linkTo L e F K V₀ s₀ s₁ ⟨b.addr, b.size + (32 + c.size), b.used⟩
        xs ys E [c] h₁) fun _ s₂ h₂ => ?_
      exact ⟨_, ys, .merge hfree hadj, rfl, h₂⟩
    · have hfalse : r = false := by
        rw [← Bool.not_eq_true, hjoin]
        exact hj
      rw [hfalse, if_neg (by decide)]
      refine Outcome.wp_of_returns (Outcome.returns_pure _ s) ⟨b, c :: ys, .keep ?_, rfl, h⟩
      intro d ds heq hd hstop
      obtain rfl := (List.cons.inj heq).1
      exact hj ⟨hd, hstop⟩

end KoalemOS.Heap
