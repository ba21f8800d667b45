import KoalemOS.Boot.AddPageMapping

/-!
# Loading one segment

`mapSegment` maps the pages of a segment that lie above `last_allocated_page`;
`copySegment` fills the frames of the segment (`segmentMem`). `loadSegment_spec` puts
the two together: what a segment changes in the address space and in memory.
-/

namespace KoalemOS.Boot

open KoalemOS.Library KoalemOS.Paging

/-! ## The pages of a segment -/

/-- The last page mapped for a segment. -/
def ProgramHeader.lastPage (ph : ProgramHeader) : Nat := ph.startPage + 4096 * (ph.memsz / 4096 + 1)

/-- The addresses of a segment are addresses, and the pages mapped for it lie in the
slots in `S`. -/
structure Target (S : Fin 512 → Prop) (ph : ProgramHeader) : Prop where
  canonical : canonical ph.vaddr = true
  bytes : ∀ k < ph.memsz, Paging.canonical (ph.vaddr + k) = true
  slots : ∀ i < ph.memsz / 4096 + 2, S (index (wrap (ph.startPage + 4096 * i)) 39)

theorem canonical_iff {v : Nat} :
    canonical v = true ↔ v < 2 ^ 47 ∨ 2 ^ 64 - 2 ^ 47 ≤ v ∧ v < 2 ^ 64 := by
  simp only [canonical, Bool.or_eq_true, Bool.and_eq_true, decide_eq_true_eq]

/-- An address from which one can go on a little without meeting the other half. -/
def NearCanonical (v : Nat) : Prop := v < 2 ^ 48 ∨ 2 ^ 64 - 2 ^ 47 ≤ v ∧ v < 2 ^ 64

theorem indices_eq_iff {v w : Nat} : indices v = indices w ↔ v / 4096 % 2 ^ 36 = w / 4096 % 2 ^ 36 := by
  simp only [indices, index, List.cons.injEq, Fin.mk.injEq, and_true]
  omega

/-- Pages above a canonical address do not alias it. -/
theorem indices_ne {v w : Nat} (hw : canonical w = true) (hv : NearCanonical v)
    (h : w / 4096 < v / 4096) : indices w ≠ indices v := by
  rw [canonical_iff] at hw
  unfold NearCanonical at hv
  rw [Ne, indices_eq_iff]
  omega

section Header

variable {S : Fin 512 → Prop} {ph : ProgramHeader}

theorem Target.startPage_eq (h : Target S ph) :
    ph.startPage = ph.vaddr / 4096 * 4096 ∧ ph.vaddr < 2 ^ 64 := by
  have hc := canonical_iff.mp h.canonical
  have hmask : ph.startPage = ph.vaddr / 2 ^ 12 % 2 ^ 52 * 2 ^ 12 := land_shifted_mask ph.vaddr 12 52
  omega

/-- Without the window slot, a segment keeps away from the end of the address space. -/
theorem Target.bounds (h : Target S ph) (h511 : ¬S 511) :
    ph.memsz ≤ 2 ^ 47 ∧ ph.lastPage < 2 ^ 64 ∧
      (ph.lastPage < 2 ^ 48 ∨ 2 ^ 64 - 2 ^ 47 ≤ ph.startPage) := by
  obtain ⟨hstart, hlt⟩ := h.startPage_eq
  have hbytes : ∀ k < ph.memsz,
      ph.vaddr + k < 2 ^ 47 ∨ 2 ^ 64 - 2 ^ 47 ≤ ph.vaddr + k ∧ ph.vaddr + k < 2 ^ 64 :=
    fun k hk => canonical_iff.mp (h.bytes k hk)
  unfold ProgramHeader.lastPage
  rcases canonical_iff.mp h.canonical with hlow | ⟨hhigh, -⟩
  · have hend : ph.vaddr + ph.memsz ≤ 2 ^ 47 := by
      by_contra hc
      have := hbytes (2 ^ 47 - ph.vaddr) (by omega)
      omega
    omega
  · have hend : ph.vaddr + ph.memsz ≤ 2 ^ 64 := by
      by_contra hc
      have := hbytes (2 ^ 64 - ph.vaddr) (by omega)
      omega
    -- the pages are contiguous, so they would have to pass slot 511
    have hlast : ph.startPage + 4096 * (ph.memsz / 4096 + 1) < 2 ^ 64 - 2 ^ 39 := by
      by_contra hc
      set top := max ph.startPage (2 ^ 64 - 2 ^ 39) with htop
      have hslot := h.slots ((top - ph.startPage) / 4096) (by omega)
      have hpage : ph.startPage + 4096 * ((top - ph.startPage) / 4096) = top := by omega
      rw [hpage, wrap_of_lt (by omega)] at hslot
      have hindex : index top 39 = 511 := by
        apply Fin.ext
        show top / 2 ^ 39 % 512 = 511
        omega
      rw [hindex] at hslot
      exact h511 hslot
    omega

theorem Target.near (h : Target S ph) (h511 : ¬S 511) {i : Nat} (hi : i < ph.memsz / 4096 + 2) :
    NearCanonical (ph.startPage + 4096 * i) := by
  obtain ⟨-, hlt, hnear⟩ := h.bounds h511
  unfold ProgramHeader.lastPage at hlt hnear
  unfold NearCanonical
  omega

end Header

/-! ## Mapping -/

variable {F : Type} {bs : BootServices F} {S : Fin 512 → Prop} {pml4 : Nat} {s s' : Loader F}

/-- The pages from number `j` on are mapped when they lie above `last`. -/
theorem mapSegment_spec (hroot : FrameAddr pml4) {addr startPage : Nat} (haligned : addr % 4096 = 0)
    {k j last last' : Nat} (h : Built bs S pml4 s) (hframes : addr + 4096 * (j + k) ≤ 2 ^ 47)
    (hpages : ∀ i, j ≤ i → i < j + k →
      startPage + 4096 * i < 2 ^ 64 ∧ S (index (startPage + 4096 * i) 39))
    (hret : (mapSegment bs pml4 addr startPage k (4096 * j) last).Returns s last' s') :
    Growth bs S pml4 s s' ∧
      last' = (if k = 0 then last else max last (startPage + 4096 * (j + k - 1))) ∧
      ∀ w, canonical w = true → S (index w 39) →
        (∀ i, j ≤ i → i < j + k → last < startPage + 4096 * i →
            indices w ≠ indices (startPage + 4096 * i)) ∧
          walk s'.mem pml4 w = walk s.mem pml4 w ∨
        ∃ i, j ≤ i ∧ i < j + k ∧ last < startPage + 4096 * i ∧
          indices w = indices (startPage + 4096 * i) ∧
          walk s'.mem pml4 w = some (leafEntry (addr + 4096 * i), 12) := by
  induction k generalizing s j last with
  | zero =>
    obtain ⟨rfl, rfl⟩ := (Outcome.returns_pure _ _).det hret
    exact ⟨.refl h, rfl, fun w _ _ => .inl ⟨fun i h1 h2 => by omega, rfl⟩⟩
  | succ k ih =>
    obtain ⟨hlt, hslot⟩ := hpages j (Nat.le_refl _) (by omega)
    have hnext : 4096 * j + 0x1000 = 4096 * (j + 1) := by omega
    have hrest : ∀ i, j + 1 ≤ i → i < j + 1 + k →
        startPage + 4096 * i < 2 ^ 64 ∧ S (index (startPage + 4096 * i) 39) :=
      fun i h1 h2 => hpages i (by omega) (by omega)
    rw [if_neg (Nat.succ_ne_zero k)]
    unfold mapSegment at hret
    rw [wrap_of_lt hlt, wrap_of_lt (by omega : addr + 4096 * j < 2 ^ 64), hnext] at hret
    split_ifs at hret with hskip
    · obtain ⟨hg, hlast, hwalk⟩ := ih h (by omega) hrest hret
      refine ⟨hg, by rw [hlast]; split_ifs <;> omega, fun w hc hw => ?_⟩
      rcases hwalk w hc hw with ⟨hne, heq⟩ | ⟨i, h1, h2, h3, h4⟩
      · refine .inl ⟨fun i h1 h2 h3 => hne i ?_ (by omega) h3, heq⟩
        rcases Nat.eq_or_lt_of_le h1 with rfl | h1
        · omega
        · exact h1
      · exact .inr ⟨i, by omega, by omega, h3, h4⟩
    · obtain ⟨⟨⟩, s₁, hmap, hret⟩ := Outcome.returns_bind_iff.mp hret
      obtain ⟨hg₁, hself, hother⟩ :=
        addPageMapping_spec h hroot hslot ⟨by omega, by omega⟩ hmap
      obtain ⟨hg, hlast, hwalk⟩ := ih hg₁.built (by omega) hrest hret
      refine ⟨hg₁.trans hg, by rw [hlast]; split_ifs <;> omega, fun w hc hw => ?_⟩
      rcases hwalk w hc hw with ⟨hne, heq⟩ | ⟨i, h1, h2, h3, h4⟩
      · by_cases hj : indices w = indices (startPage + 4096 * j)
        · exact .inr ⟨j, Nat.le_refl _, by omega, by omega, hj, heq.trans (hself w hc hj)⟩
        · refine .inl ⟨fun i h1 h2 h3 => ?_, heq.trans (hother w hw hj)⟩
          rcases Nat.eq_or_lt_of_le h1 with rfl | h1
          · exact hj
          · exact hne i h1 (by omega) (by omega)
      · exact .inr ⟨i, by omega, by omega, by omega, h4⟩

/-! ## Copying -/

/-- Memory after the segment bytes have been written at `dst`: `filesz` bytes from `src`,
then zeros. -/
def segmentMem (m : Mem) (src dst filesz memsz : Nat) : Mem := fun x =>
  if dst ≤ x ∧ x < dst + memsz then if x - dst < filesz then m (src + (x - dst)) else 0 else m x

theorem returns_copySegment {elf addr : Nat} {ph : ProgramHeader} (hsz : ph.filesz ≤ ph.memsz)
    (hsrc : elf + ph.offset + ph.filesz ≤ 2 ^ 64)
    (hdst : addr + (ph.vaddr - ph.startPage) + ph.memsz ≤ 2 ^ 64)
    (hdisj : ∀ k < ph.filesz, ∀ l < ph.memsz,
      elf + ph.offset + k ≠ addr + (ph.vaddr - ph.startPage) + l) :
    (copySegment elf addr ph).Returns s ()
      { s with
        mem := segmentMem s.mem (elf + ph.offset) (addr + (ph.vaddr - ph.startPage)) ph.filesz
          ph.memsz } := by
  set src := elf + ph.offset with hsrcdef
  set dst := addr + (ph.vaddr - ph.startPage) with hdstdef
  let copyBody : Nat → BootM F Unit := fun offset => do
    let b ← Outcome.gets fun t : Loader F => t.mem (wrap (src + offset))
    writePhysByte (wrap (dst + offset)) b
  let zeroBody : Nat → BootM F Unit := fun offset => writePhysByte (wrap (dst + offset)) 0
  have hcopy : (Outcome.loop 0 ph.filesz copyBody).Returns _ () _ := Outcome.returns_loop
    (fun k => { s with mem := segmentMem s.mem src dst k k }) 0 ph.filesz fun k _ hk => by
      refine (Outcome.returns_gets _ _).bind ?_
      refine Eq.trans (Outcome.returns_modify _ _) ?_
      rw [wrap_of_lt (by omega), wrap_of_lt (by omega)]
      congr 2
      funext x
      have hne := hdisj k (by omega)
      by_cases hx : x = dst + k
      · subst hx
        have hout : ¬(dst ≤ src + k ∧ src + k < dst + k) := by
          intro hc
          exact hne (src + k - dst) (by omega) (by omega)
        have hread : segmentMem s.mem src dst k k (src + k) = s.mem (src + k) := if_neg hout
        show Mem.storeByte _ (dst + k) (segmentMem s.mem src dst k k (src + k)) (dst + k) = _
        rw [hread]
        simp [Mem.storeByte, segmentMem]
      · have hiff : dst ≤ x ∧ x < dst + (k + 1) ↔ dst ≤ x ∧ x < dst + k := by omega
        simp only [Mem.storeByte, segmentMem, hx, if_false, hiff]
        split_ifs <;> first | rfl | omega
  have hzero : (Outcome.loop ph.filesz (ph.memsz - ph.filesz) zeroBody).Returns _ () _ :=
    Outcome.returns_loop (fun k => { s with mem := segmentMem s.mem src dst ph.filesz k }) ph.filesz
    (ph.memsz - ph.filesz) fun k h1 h2 => by
      refine Eq.trans (Outcome.returns_modify _ _) ?_
      rw [wrap_of_lt (by omega)]
      congr 2
      funext x
      by_cases hx : x = dst + k
      · subst hx
        have : ¬k < ph.filesz := by omega
        simp [Mem.storeByte, segmentMem, this]
      · have hiff : dst ≤ x ∧ x < dst + (k + 1) ↔ dst ≤ x ∧ x < dst + k := by omega
        simp only [Mem.storeByte, segmentMem, hx, if_false, hiff]
  rw [Nat.zero_add] at hcopy
  rw [show ph.filesz + (ph.memsz - ph.filesz) = ph.memsz by omega] at hzero
  have hstart : segmentMem s.mem src dst 0 0 = s.mem := by
    funext x
    unfold segmentMem
    rw [if_neg (by omega)]
  rw [hstart] at hcopy
  exact hcopy.bind hzero

/-- Memory that differs outside the tables only. -/
theorem Built.congr (h : Built bs S pml4 s) {m' : Mem}
    (hm : ∀ x, IsTableIn S s.mem pml4 (x / 4096) → m' x = s.mem x) :
    Built bs S pml4 { s with mem := m' } ∧
      (∀ n, IsTableIn S m' pml4 n ↔ IsTableIn S s.mem pml4 n) ∧
      ∀ w, S (index w 39) → walk m' pml4 w = walk s.mem pml4 w := by
  have hrows : ∀ n, IsTableIn S s.mem pml4 n → tables m' n = tables s.mem n := by
    intro n hn
    refine row_eq_of_bytes_eq fun x hx => hm x ?_
    rwa [hx]
  obtain ⟨hdesc, hwalk, hlarge⟩ := tablesIn_congr hrows
  have hiff : ∀ n, IsTableIn S m' pml4 n ↔ IsTableIn S s.mem pml4 n := fun n =>
    exists_congr fun p => and_congr_right fun hp => by rw [hdesc p hp]
  refine ⟨⟨⟨h.tree.congr hdesc, fun n hn => h.inUse n ((hiff n).mp hn), fun n i hn hi hp => ?_⟩,
    fun v hv => hlarge v hv (h.noLarge v hv)⟩, hiff, hwalk⟩
  have hn' := (hiff n).mp hn
  have hrow := congrFun (hrows n hn') i
  change present (tables m' n i) = true at hp
  show tables m' n i < 2 ^ 52
  rw [hrow] at hp ⊢
  exact h.small n i hn' hi hp

/-! ## A segment -/

/-- The kernel file lies in `len` bytes at `elf`, in frames that are in use and hold no
tables. -/
structure FileAt (bs : BootServices F) (S : Fin 512 → Prop) (pml4 elf len : Nat) (s : Loader F) :
    Prop where
  bound : elf + len ≤ 2 ^ 47
  inUse : ∀ x, elf ≤ x → x < elf + len → bs.inUse s.firmware (x / 4096)
  notTable : ∀ x, elf ≤ x → x < elf + len → ¬IsTableIn S s.mem pml4 (x / 4096)

/-- What loading a segment to frames at `addr` does. -/
structure SegmentLoaded (bs : BootServices F) (S : Fin 512 → Prop) (pml4 elf : Nat)
    (ph : ProgramHeader) (addr last : Nat) (s s' : Loader F) : Prop where
  built : Built bs S pml4 s'
  inUse : ∀ n, bs.inUse s.firmware n → bs.inUse s'.firmware n
  notTable : ∀ n, bs.inUse s.firmware n → ¬IsTableIn S s.mem pml4 n → ¬IsTableIn S s'.mem pml4 n
  aligned : addr % 4096 = 0
  bound : addr + 4096 * (ph.memsz / 4096 + 2) ≤ 2 ^ 47
  fresh : ∀ i < ph.memsz / 4096 + 2, ¬bs.inUse s.firmware (addr / 4096 + i) ∧
    bs.inUse s'.firmware (addr / 4096 + i) ∧ ¬IsTableIn S s'.mem pml4 (addr / 4096 + i)
  bytes : ∀ x, ¬IsTableIn S s'.mem pml4 (x / 4096) →
    s'.mem x = segmentMem s.mem (elf + ph.offset) (addr + (ph.vaddr - ph.startPage)) ph.filesz
      ph.memsz x
  walks : ∀ w, canonical w = true → S (index w 39) →
    (∀ i < ph.memsz / 4096 + 2, last < ph.startPage + 4096 * i →
        indices w ≠ indices (ph.startPage + 4096 * i)) ∧
      walk s'.mem pml4 w = walk s.mem pml4 w ∨
    ∃ i < ph.memsz / 4096 + 2, last < ph.startPage + 4096 * i ∧
      indices w = indices (ph.startPage + 4096 * i) ∧
      walk s'.mem pml4 w = some (leafEntry (addr + 4096 * i), 12)

theorem loadSegment_spec (hroot : FrameAddr pml4) (h511 : ¬S 511) {elf len last last' : Nat}
    {ph : ProgramHeader} (h : Built bs S pml4 s) (hfile : FileAt bs S pml4 elf len s)
    (ht : Target S ph) (hsz : ph.filesz ≤ ph.memsz) (hrange : ph.offset + ph.filesz ≤ len)
    (hret : (loadSegment bs pml4 elf ph last).Returns s last' s') :
    last' = max last ph.lastPage ∧ ∃ addr, SegmentLoaded bs S pml4 elf ph addr last s s' := by
  obtain ⟨hstart, hvlt⟩ := ht.startPage_eq
  obtain ⟨hmemsz, hlastlt, -⟩ := ht.bounds h511
  have hpages : ph.pages = ph.memsz / 4096 + 2 := wrap_of_lt (by omega)
  have hcount : wrap (ph.pages * 0x1000) / 0x1000 = ph.memsz / 4096 + 2 := by
    rw [hpages, wrap_of_lt (by omega)]
    omega
  unfold loadSegment at hret
  obtain ⟨addr, s₁, halloc, hret⟩ := Outcome.returns_bind_iff.mp hret
  obtain ⟨l, s₂, hmap, hret⟩ := Outcome.returns_bind_iff.mp hret
  obtain ⟨⟨⟩, s₃, hcopy, hret⟩ := Outcome.returns_bind_iff.mp hret
  obtain ⟨rfl, rfl⟩ := (Outcome.returns_pure _ _).det hret
  -- the frames of the segment
  obtain ⟨hcall, hmem⟩ := allocatePages_eq halloc
  rw [hpages] at hcall
  have haligned := bs.aligned _ _ _ _ hcall
  have hbound := bs.mapped _ _ _ _ hcall
  have hin₁ : ∀ n, bs.inUse s.firmware n → bs.inUse s₁.firmware n :=
    fun n hn => (bs.taken _ _ _ _ hcall n).mpr (.inl hn)
  have hs₁ : s₁ = { s with firmware := s₁.firmware } := by
    cases s₁
    cases s
    simp only at hmem ⊢
    rw [hmem]
  have g₁ : Growth bs S pml4 s s₁ := by
    rw [hs₁]
    exact .of_firmware h hin₁
  have hfresh₁ : ∀ i < ph.memsz / 4096 + 2, ¬bs.inUse s.firmware (addr / 4096 + i) ∧
      bs.inUse s₁.firmware (addr / 4096 + i) ∧ ¬IsTableIn S s₁.mem pml4 (addr / 4096 + i) := by
    intro i hi
    have hfree : ¬bs.inUse s.firmware (addr / 4096 + i) := fun hn =>
      bs.fresh _ _ _ _ hcall _ hn ⟨by omega, by omega⟩
    refine ⟨hfree, (bs.taken _ _ _ _ hcall _).mpr (.inr ⟨by omega, by omega⟩), fun hn => ?_⟩
    rw [hmem] at hn
    exact hfree (h.inUse _ hn)
  -- mapping
  rw [hcount, ← Nat.mul_zero 4096] at hmap
  have hslots : ∀ i, 0 ≤ i → i < 0 + (ph.memsz / 4096 + 2) →
      ph.startPage + 4096 * i < 2 ^ 64 ∧ S (index (ph.startPage + 4096 * i) 39) := by
    intro i _ hi
    have hslot := ht.slots i (by omega)
    unfold ProgramHeader.lastPage at hlastlt
    rw [wrap_of_lt (by omega)] at hslot
    exact ⟨by omega, hslot⟩
  have hroom : addr + 4096 * (0 + (ph.memsz / 4096 + 2)) ≤ 2 ^ 47 := by rwa [Nat.zero_add]
  obtain ⟨g₂, hlast, hwalk⟩ := mapSegment_spec hroot haligned g₁.built hroom hslots hmap
  have g := g₁.trans g₂
  -- copying
  have hdst : ∀ l < ph.memsz, ∃ i < ph.memsz / 4096 + 2,
      (addr + (ph.vaddr - ph.startPage) + l) / 4096 = addr / 4096 + i := fun l hl =>
    ⟨(addr + (ph.vaddr - ph.startPage) + l) / 4096 - addr / 4096, by omega, by omega⟩
  have hdisj : ∀ k < ph.filesz, ∀ l < ph.memsz,
      elf + ph.offset + k ≠ addr + (ph.vaddr - ph.startPage) + l := by
    intro k hk l hl hc
    obtain ⟨i, hi, hframe⟩ := hdst l hl
    refine (hfresh₁ i hi).1 ?_
    rw [← hframe, ← hc]
    exact hfile.inUse _ (by omega) (by omega)
  have hfilebound := hfile.bound
  have hcopied := returns_copySegment (s := s₂) hsz (by omega) (by omega) hdisj
  obtain ⟨-, rfl⟩ := hcopied.det hcopy
  have hframes : ∀ i < ph.memsz / 4096 + 2, ¬IsTableIn S s₂.mem pml4 (addr / 4096 + i) :=
    fun i hi => g₂.notTable _ (hfresh₁ i hi).2.1 (hfresh₁ i hi).2.2
  obtain ⟨hbuilt, hiff, hwalk'⟩ := g₂.built.congr
    fun x hx => by
    show segmentMem s₂.mem (elf + ph.offset) (addr + (ph.vaddr - ph.startPage)) ph.filesz
      ph.memsz x = _
    unfold segmentMem
    rw [if_neg]
    rintro ⟨h1, h2⟩
    obtain ⟨i, hi, hframe⟩ := hdst (x - (addr + (ph.vaddr - ph.startPage))) (by omega)
    rw [show addr + (ph.vaddr - ph.startPage) + (x - (addr + (ph.vaddr - ph.startPage))) = x
      by omega] at hframe
    rw [hframe] at hx
    exact hframes i hi hx
  refine ⟨?_, addr, ⟨hbuilt, g.inUse, fun n hn hnt ht' => ?_, haligned, hbound, fun i hi => ?_,
    fun x hx => ?_, fun w hc hw => ?_⟩⟩
  · rw [hlast, if_neg (Nat.succ_ne_zero _), ProgramHeader.lastPage,
      show 0 + (ph.memsz / 4096 + 2) - 1 = ph.memsz / 4096 + 1 by omega]
  · exact g.notTable n hn hnt ((hiff n).mp ht')
  · obtain ⟨h1, h2, -⟩ := hfresh₁ i hi
    exact ⟨h1, g₂.inUse _ h2, fun hn => hframes i hi ((hiff _).mp hn)⟩
  · have hsame : ∀ y, ¬IsTableIn S s₂.mem pml4 (y / 4096) → s₂.mem y = s.mem y := g.bytes
    have hx' : ¬IsTableIn S s₂.mem pml4 (x / 4096) := fun hn => hx ((hiff _).mpr hn)
    show segmentMem s₂.mem _ _ _ _ x = segmentMem s.mem _ _ _ _ x
    unfold segmentMem
    split_ifs with hin hk
    · refine hsame _ (g.notTable _ (hfile.inUse _ ?_ ?_) (hfile.notTable _ ?_ ?_)) <;> omega
    · rfl
    · exact hsame x hx'
  · rcases hwalk w hc hw with ⟨hne, heq⟩ | ⟨i, -, h2, h3, h4, h5⟩
    · refine .inl ⟨fun i hi => hne i (Nat.zero_le i) (by omega), ?_⟩
      rw [hwalk' w hw, heq, hmem]
    · exact .inr ⟨i, by omega, h3, h4, (hwalk' w hw).trans h5⟩

end KoalemOS.Boot
