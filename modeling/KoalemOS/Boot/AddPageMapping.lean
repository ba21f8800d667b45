import KoalemOS.Boot.NextTable

/-!
# What `add_page_mapping` does

The tables behind the empty slots `S` of the new PML4 are all built by the loader, in
frames the firmware gives (`Built`). A call adds tables and changes one leaf entry
(`addPageMapping_spec`); memory that holds no table stays as it is (`Growth`).
-/

namespace KoalemOS.Boot

open KoalemOS.Library KoalemOS.Paging

variable {F : Type} {bs : BootServices F} {S : Fin 512 → Prop} {pml4 : Nat} {s s' s'' : Loader F}

/-! ## Invariant and steps -/

/-- The tables behind the slots in `S` have been built, and map no large page. -/
structure Built (bs : BootServices F) (S : Fin 512 → Prop) (pml4 : Nat) (s : Loader F) : Prop
    extends Tabled bs S pml4 s where
  noLarge : ∀ v, S (index v 39) → NoLargePage s.mem pml4 v

/-- From `s` to `s'` tables may have been added and edited. -/
structure Growth (bs : BootServices F) (S : Fin 512 → Prop) (pml4 : Nat) (s s' : Loader F) :
    Prop where
  built : Built bs S pml4 s'
  keep : ∀ p n, (slotPaths S).mem p → tableAt s.mem pml4 p = some n →
    tableAt s'.mem pml4 p = some n
  inUse : ∀ n, bs.inUse s.firmware n → bs.inUse s'.firmware n
  notTable : ∀ n, bs.inUse s.firmware n → ¬IsTableIn S s.mem pml4 n → ¬IsTableIn S s'.mem pml4 n
  bytes : ∀ x, ¬IsTableIn S s'.mem pml4 (x / 4096) → s'.mem x = s.mem x

theorem Growth.refl (h : Built bs S pml4 s) : Growth bs S pml4 s s where
  built := h
  keep _ _ _ hn := hn
  inUse _ hn := hn
  notTable _ _ hn := hn
  bytes _ _ := rfl

theorem Growth.isTable (h : Growth bs S pml4 s s') {n : Nat} (hn : IsTableIn S s.mem pml4 n) :
    IsTableIn S s'.mem pml4 n := by
  obtain ⟨p, hp, hpn⟩ := hn
  exact ⟨p, hp, h.keep p n hp hpn⟩

theorem Growth.trans (h : Growth bs S pml4 s s') (h' : Growth bs S pml4 s' s'') :
    Growth bs S pml4 s s'' where
  built := h'.built
  keep p n hp hn := h'.keep p n hp (h.keep p n hp hn)
  inUse n hn := h'.inUse n (h.inUse n hn)
  notTable n hn ht := h'.notTable n (h.inUse n hn) (h.notTable n hn ht)
  bytes x hx := (h'.bytes x hx).trans (h.bytes x fun ht => hx (h'.isTable ht))

/-- What does not change the memory is no growth of the tables. -/
theorem Growth.of_firmware (h : Built bs S pml4 s) {st : F}
    (hst : ∀ n, bs.inUse s.firmware n → bs.inUse st n) :
    Growth bs S pml4 s { s with firmware := st } where
  built := ⟨⟨h.tree, fun n hn => hst n (h.inUse n hn), h.small⟩, h.noLarge⟩
  keep _ _ _ hn := hn
  inUse := hst
  notTable _ _ hn := hn
  bytes _ _ := rfl

/-- One more table on the path of an address keeps the tables free of large pages. -/
theorem Growth.of_grew (h : Built bs S pml4 s) (hg : Grew bs S pml4 s s') :
    Growth bs S pml4 s s' where
  built := by
    refine ⟨hg.tabled, fun v hv p i hu => ?_⟩
    exact hg.notLarge p i (hu.mem hv).2 (h.noLarge v hv p i hu)
  keep := hg.keep
  inUse := hg.inUse
  notTable := hg.notTable
  bytes := hg.bytes

/-! ## The leaf entry -/

/-- A store of a leaf entry. -/
theorem Growth.of_leaf (t : Loader F) (h : Built bs S pml4 s) {v n e : Nat} (hv : S (index v 39))
    (hn : ptAt s.mem pml4 v = some n) (he : e < 2 ^ 52) (hfw : t.firmware = s.firmware)
    (hm : t.mem = s.mem.store64 (4096 * n + 8 * index v 12) e) :
    Growth bs S pml4 s t ∧
      (∀ w, S (index w 39) → indices w ≠ indices v → walk t.mem pml4 w = walk s.mem pml4 w) ∧
      ptAt t.mem pml4 v = some n ∧ tables t.mem n (index v 12) = e := by
  have hset : tables t.mem = (tables s.mem).set n (index v 12) e := by
    rw [hm]
    exact tables_store64 _ _ _ (by omega)
  obtain ⟨htree, hdesc, hwalk, hlarge⟩ := walkIn_set_leaf h.tree hv hn hset
  have hpath : (slotPaths S).mem [index v 39, index v 30, index v 21] := (UpperOf.pd.mem hv).2
  have hback : ∀ k, IsTableIn S t.mem pml4 k → IsTableIn S s.mem pml4 k := by
    rintro k ⟨p, hp, hk⟩
    exact ⟨p, hp, by rwa [hdesc p hp] at hk⟩
  have hforth : ∀ k, IsTableIn S s.mem pml4 k → IsTableIn S t.mem pml4 k := by
    rintro k ⟨p, hp, hk⟩
    exact ⟨p, hp, by rwa [hdesc p hp]⟩
  refine ⟨⟨⟨⟨htree, fun k hk => ?_, h.small_set hback hset he⟩, fun w hw => hlarge w hw (h.noLarge w hw)⟩,
      fun p k hp hk => ?_, fun k hk => ?_, fun k _ hk ht => hk (hback k ht), fun x hx => ?_⟩, hwalk, ?_, ?_⟩
  · rw [hfw]
    exact h.inUse k (hback k hk)
  · rwa [hdesc p hp]
  · rwa [hfw]
  · refine byte_eq_of_row_eq (n := x / 4096) ?_ rfl
    funext j
    rw [hset, Tables.set_apply_of_ne]
    refine .inl fun hc => hx (hforth _ ⟨_, hpath, ?_⟩)
    rw [hc]
    exact hn
  · rw [ptAt, hdesc _ hpath]
    exact hn
  · rw [hset, Tables.set_apply_self]

theorem leafEntry_spec {paddr : Nat} (h : FrameAddr paddr) :
    present (leafEntry paddr) = true ∧ leafEntry paddr < 2 ^ 52 ∧
      frameOf (leafEntry paddr) = paddr / 4096 := by
  have hlt := h.lt
  obtain ⟨hp, -, hf⟩ := link_eq_some.mp (link_frame_flags h flagsOk_readWrite).1
  exact ⟨hp, Nat.or_lt_two_pow (Nat.or_lt_two_pow (by omega) (by decide)) (by decide), hf⟩

/-- `add_page_mapping` of a small page maps the addresses with the indices of `v` to the
frame, and no other address of the slots in `S` differently than before. -/
theorem addPageMapping_spec (h : Built bs S pml4 s) (hroot : FrameAddr pml4) {v paddr : Nat}
    (hv : S (index v 39)) (hp : FrameAddr paddr)
    (hret : (addPageMapping bs pml4 v paddr .size4K).Returns s () s') :
    Growth bs S pml4 s s' ∧
      (∀ w, canonical w = true → indices w = indices v →
        walk s'.mem pml4 w = some (leafEntry paddr, 12)) ∧
      ∀ w, S (index w 39) → indices w ≠ indices v → walk s'.mem pml4 w = walk s.mem pml4 w := by
  have hpml4 : pml4 = 4096 * frameOf pml4 := by
    have h1 := hroot.aligned
    have h2 := hroot.lt
    unfold frameOf
    omega
  unfold addPageMapping at hret
  obtain ⟨pdpt, s₁, h₁, hret⟩ := Outcome.returns_bind_iff.mp hret
  rw [hpml4] at h₁
  obtain ⟨r₁, f₁, n₁, rfl⟩ :=
    nextTable_spec (p := []) h.toTabled (UpperOf.pml4.mem hv).2 (h.noLarge v hv _ _ .pml4) rfl h₁
  have g₁ := Growth.of_grew h r₁
  rw [if_neg (by decide)] at hret
  obtain ⟨pd, s₂, h₂, hret⟩ := Outcome.returns_bind_iff.mp hret
  obtain ⟨r₂, f₂, n₂, rfl⟩ := nextTable_spec g₁.built.toTabled (UpperOf.pdpt.mem hv).2
    (g₁.built.noLarge v hv _ _ .pdpt) n₁.table h₂
  have g₂ := Growth.of_grew g₁.built r₂
  rw [if_neg (by decide)] at hret
  obtain ⟨pt, s₃, h₃, hret⟩ := Outcome.returns_bind_iff.mp hret
  obtain ⟨r₃, f₃, n₃, rfl⟩ := nextTable_spec g₂.built.toTabled (UpperOf.pd.mem hv).2
    (g₂.built.noLarge v hv _ _ .pd) n₂.table h₃
  have g₃ := Growth.of_grew g₂.built r₃
  have hf₃ : ptAt s₃.mem pml4 v = some f₃ := n₃.table
  obtain ⟨-, rfl⟩ := (returns_writePhys _ _).det hret
  obtain ⟨hpres, hlt, -⟩ := leafEntry_spec hp
  obtain ⟨g₄, w₄, hpt, hleaf⟩ := Growth.of_leaf
    { s₃ with mem := s₃.mem.store64 (4096 * f₃ + 8 * index v 12) (leafEntry paddr) }
    g₃.built hv hf₃ hlt rfl rfl
  refine ⟨((g₁.trans g₂).trans g₃).trans g₄, fun w hc hw => ?_, fun w hw hne => ?_⟩
  · have hsame : index w 39 = index v 39 ∧ index w 30 = index v 30 ∧ index w 21 = index v 21 ∧
        index w 12 = index v 12 := by simpa [indices] using hw
    obtain ⟨h39, h30, h21, h12⟩ := hsame
    have hptw := hpt
    rw [ptAt, ← h39, ← h30, ← h21] at hptw
    rw [walk_of_ptAt hc hptw, h12]
    exact (congrArg (fun e => if present e then some (e, 12) else none) hleaf).trans (if_pos hpres)
  · exact (w₄ w hw hne).trans ((r₃.walk w hw).trans ((r₂.walk w hw).trans (r₁.walk w hw)))

end KoalemOS.Boot
