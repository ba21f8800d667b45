import KoalemOS.Heap.InitMmap
import KoalemOS.Paging.SplitFrames

/-!
# The frames of the memory map (`init_mmap` of `src/kernel/memory.c`)

In every run that finds each descriptor as it was at the start, the frames that have been handed out and
the free frames are, together, those of the usable descriptors, but for the boot image's and frame 0
(`initMmap_frames`).

The frames of the array of descriptors are usable, too. When one of them becomes a page table, the
descriptors that have not been read yet are lost (`initMmap_loses`).
-/

namespace KoalemOS.Heap

open KoalemOS.Library KoalemOS.Mmap KoalemOS.Paging KoalemOS.Smp

/-! ## What the loop has given -/

/-- The frames that are kept for the boot image. -/
def apFrames (size : Nat) (s : Kernel) : List Nat :=
  if s.apBootPaddrUnset then [] else MemoryRange.pageList ⟨s.apBootPaddr, apBootPages size⟩

/-- The frames of usable descriptors, but for those of the boot image and frame 0. -/
def FrameOfMap (size : Nat) (ds : List EfiMemoryDescriptor) (s : Kernel) (a : Nat) : Prop :=
  (∃ d ∈ ds, d.type.usable = true ∧ a ∈ (descRange d).pageList) ∧ a ∉ apFrames size s ∧ a ≠ 0

/-- The boot image lies in the first pages of `d`. -/
structure HoldsApBoot (size paddr : Nat) (d : EfiMemoryDescriptor) : Prop where
  usable : d.type.usable = true
  low : d.physicalStart.toNat ≤ 0xFF000
  start : paddr = d.physicalStart.toNat
  fits : apBootPages size ≤ d.numberOfPages.toNat

/-- The descriptors `ds` have given their frames. -/
structure FramesGiven (size : Nat) (ds : List EfiMemoryDescriptor) (s : Kernel) : Prop where
  accounts : Accounts (FrameOfMap size ds s) s
  apBoot : s.apBootPaddrUnset = false → ∃ d ∈ ds, HoldsApBoot size s.apBootPaddr d
  choice : Smp.apBootPaddr size ds = if s.apBootPaddrUnset then none else some s.apBootPaddr

section Filling

variable {size a : Nat} {data : EfiMmapData} {ds : List EfiMemoryDescriptor} {d : EfiMemoryDescriptor} {s : Kernel}

theorem HoldsApBoot.frames {paddr : Nat} (h : HoldsApBoot size paddr d)
    (ha : a ∈ MemoryRange.pageList ⟨paddr, apBootPages size⟩) : a ∈ (descRange d).pageList := by
  obtain ⟨-, -, hstart, hfits⟩ := h
  obtain ⟨i, hi, rfl⟩ := MemoryRange.mem_pageList.mp ha
  simp only at hi
  exact MemoryRange.mem_pageList.mpr ⟨i, Nat.lt_of_lt_of_le hi hfits, by rw [hstart]; rfl⟩

/-- The frames of the boot image are frames of a descriptor. -/
theorem FramesGiven.apFrame (h : FramesGiven size ds s) (ha : a ∈ apFrames size s) :
    ∃ d ∈ ds, a ∈ (descRange d).pageList := by
  unfold apFrames at ha
  split_ifs at ha with hunset
  · cases ha
  · obtain ⟨d, hd, hap⟩ := h.apBoot (by simpa using hunset)
    exact ⟨d, hd, hap.frames ha⟩

theorem FramesGiven.alloc (h : FramesGiven size ds s) : FramesGiven size ds (s.allocated 1) :=
  ⟨h.accounts.alloc, h.apBoot, h.choice⟩

theorem FramesGiven.withMem (h : FramesGiven size ds s) (m : Mem) : FramesGiven size ds { s with mem := m } :=
  ⟨⟨h.accounts.wf, h.accounts.nodup, h.accounts.mem⟩, h.apBoot, h.choice⟩

/-- The address is chosen once. -/
theorem apBootPaddr_append (size : Nat) (ds : List EfiMemoryDescriptor) (d : EfiMemoryDescriptor) :
    Smp.apBootPaddr size (ds ++ [d]) = (Smp.apBootPaddr size ds).or (Smp.apBootPaddr size [d]) := by
  induction ds with
  | nil => rfl
  | cons q ds ih =>
    simp only [List.cons_append, Smp.apBootPaddr]
    split
    · rfl
    · exact ih

/-- A descriptor that is not usable gives nothing. -/
theorem FramesGiven.skip (h : FramesGiven size ds s) (hd : d.type.usable = false) : FramesGiven size (ds ++ [d]) s := by
  refine ⟨h.accounts.congr fun a => ?_, fun hunset => ?_, ?_⟩
  · simp [FrameOfMap, or_and_right, exists_or, hd]
  · obtain ⟨q, hq, hap⟩ := h.apBoot hunset
    exact ⟨q, List.mem_append_left _ hq, hap⟩
  · rw [apBootPaddr_append, ← h.choice]
    simp [Smp.apBootPaddr, hd]

/-- A usable descriptor whose frames have been added to those of the map. -/
theorem FramesGiven.give {s₁ s' : Kernel} {F : Nat → Prop} (hd : d.type.usable = true)
    (hap : ∀ a, FrameOfMap size ds s a ↔ FrameOfMap size ds s₁ a)
    (hF : ∀ a, F a ↔ a ∈ (descRange d).pageList ∧ a ∉ apFrames size s₁ ∧ a ≠ 0)
    (hboot : s₁.apBootPaddrUnset = false → ∃ q ∈ ds ++ [d], HoldsApBoot size s₁.apBootPaddr q)
    (hchoice : Smp.apBootPaddr size (ds ++ [d]) = if s₁.apBootPaddrUnset then none else some s₁.apBootPaddr)
    (hsame : s'.apBootPaddrUnset = s₁.apBootPaddrUnset ∧ s'.apBootPaddr = s₁.apBootPaddr)
    (hs' : Accounts (fun a => FrameOfMap size ds s a ∨ F a) s') : FramesGiven size (ds ++ [d]) s' := by
  obtain ⟨hunset, hpaddr⟩ := hsame
  have hframes : apFrames size s' = apFrames size s₁ := by rw [apFrames, hunset, hpaddr, apFrames]
  refine ⟨hs'.congr fun a => ?_, fun hu => ?_, by rw [hchoice, hunset, hpaddr]⟩
  · rw [hap, hF]
    simp only [FrameOfMap, hframes, List.mem_append, List.mem_singleton, or_and_right, exists_or, exists_eq_left, hd,
      true_and]
  · obtain ⟨q, hq, husable, hlow, hstart, hfits⟩ := hboot (hunset ▸ hu)
    exact ⟨q, hq, husable, hlow, hpaddr.trans hstart, hfits⟩

/-- The two ways through the choice of the address. -/
theorem takeApBoot_returns (size : Nat) (d : EfiMemoryDescriptor) (s : Kernel) : ∃ left s',
    (takeApBoot size d).Returns s left s' ∧
      ((left = some d ∧ s' = s ∧ (s.apBootPaddrUnset = true → Smp.apBootPaddr size [d] = none)) ∨
      s.apBootPaddrUnset = true ∧ d.physicalStart.toNat ≤ 0xFF000 ∧ apBootPages size ≤ d.numberOfPages.toNat ∧
      (d.type.usable = true → Smp.apBootPaddr size [d] = some d.physicalStart.toNat) ∧
      s' = { s with apBootPaddrUnset := false, apBootPaddr := d.physicalStart.toNat } ∧
      left = if d.numberOfPages.toNat = apBootPages size then none else some (withoutPages d (apBootPages size))) := by
  by_cases hfits : s.apBootPaddrUnset ∧ d.physicalStart.toNat ≤ 0xFF000 ∧ size ≤ (0x1000 * d.numberOfPages).toNat
  · obtain ⟨hunset, hlow, hsize⟩ := id hfits
    have hle : (0x1000 * d.numberOfPages).toNat ≤ 0x1000 * d.numberOfPages.toNat := by
      rw [UInt64.toNat_mul]
      exact Nat.mod_le _ _
    refine ⟨_, _, ?_, .inr ⟨hunset, hlow, apBootPages_le (hsize.trans hle), fun hd => ?_, rfl, rfl⟩⟩
    swap
    · exact if_pos ⟨hd, hlow, hsize⟩
    refine (Outcome.returns_gets _ s).bind ?_
    rw [if_pos hfits]
    refine (Outcome.returns_modify _ s).bind ?_
    split_ifs <;> exact Outcome.returns_pure _ _
  · refine ⟨_, _, ?_, .inl ⟨rfl, rfl, fun hunset => if_neg fun h => hfits ⟨hunset, h.2⟩⟩⟩
    refine (Outcome.returns_gets _ s).bind ?_
    rw [if_neg hfits]
    exact Outcome.returns_pure _ s

/-- What `giveFrames` adds, once the boot image has been looked at. -/
theorem left_pages (size : Nat) (h : DescWf d) {left : Option EfiMemoryDescriptor} {ap : List Nat}
    (hleft : (left = some d ∧ ∀ a ∈ (descRange d).pageList, a ∉ ap) ∨
      apBootPages size ≤ d.numberOfPages.toNat ∧ ap = MemoryRange.pageList ⟨d.physicalStart.toNat, apBootPages size⟩ ∧
      left = if d.numberOfPages.toNat = apBootPages size then none else some (withoutPages d (apBootPages size))) :
    (∀ l, left.bind skipFrameZero = some l → (descRange l).Wf) ∧
      ∀ a, (∃ l, left.bind skipFrameZero = some l ∧ a ∈ (descRange l).pageList) ↔
        a ∈ (descRange d).pageList ∧ a ∉ ap ∧ a ≠ 0 := by
  rcases hleft with ⟨rfl, hap⟩ | ⟨hfits, rfl, rfl⟩
  · obtain ⟨hwf, hpages⟩ := skipFrameZero_pages h
    refine ⟨hwf, fun a => (hpages a).trans ?_⟩
    exact ⟨fun ⟨ha, hne⟩ => ⟨ha, hap a ha, hne⟩, fun ⟨ha, _, hne⟩ => ⟨ha, hne⟩⟩
  · split_ifs with hexact
    · -- the boot image takes all pages
      refine ⟨nofun, fun a => ⟨nofun, ?_⟩⟩
      rintro ⟨ha, hnot, -⟩
      rw [← hexact] at hnot
      exact absurd ha hnot
    · have hlt : apBootPages size < d.numberOfPages.toNat := by omega
      obtain ⟨hwf, hpages⟩ := skipFrameZero_pages (h.without hlt)
      refine ⟨hwf, fun a => (hpages a).trans ?_⟩
      rw [mem_pages_without h hlt, and_assoc]

/-- A usable descriptor gives its frames, and what is left of it is unmapped. -/
theorem giveFrames_wp (hs : FramesGiven size ds s) (hwf : DescWf d) (hd : d.type.usable = true)
    (hnew : ∀ q ∈ ds, ∀ a ∈ (descRange d).pageList, a ∉ (descRange q).pageList) :
    Outcome.wp (fun _ => True) (giveFrames size d) (fun _ s' => FramesGiven size (ds ++ [d]) s') s := by
  obtain ⟨left, s₁, hret, hcases⟩ := takeApBoot_returns size d s
  refine Outcome.wp_bind_returns hret ?_
  have hold : ∀ a ∈ (descRange d).pageList, a ∉ apFrames size s := fun a ha hc => by
    obtain ⟨q, hq, haq⟩ := hs.apFrame hc
    exact hnew q hq a ha haq
  have hnotYet : ∀ a ∈ (descRange d).pageList, ¬FrameOfMap size ds s a := by
    rintro a ha ⟨⟨q, hq, -, haq⟩, -⟩
    exact hnew q hq a ha haq
  -- the boot image takes no frame that has been given
  have hfacts : (∀ a, FrameOfMap size ds s a ↔ FrameOfMap size ds s₁ a) ∧ Accounts (FrameOfMap size ds s) s₁ ∧
      (s₁.apBootPaddrUnset = false → ∃ q ∈ ds ++ [d], HoldsApBoot size s₁.apBootPaddr q) ∧
      (Smp.apBootPaddr size (ds ++ [d]) = if s₁.apBootPaddrUnset then none else some s₁.apBootPaddr) ∧
      (∀ l, left.bind skipFrameZero = some l → (descRange l).Wf) ∧
      ∀ a, (∃ l, left.bind skipFrameZero = some l ∧ a ∈ (descRange l).pageList) ↔
        a ∈ (descRange d).pageList ∧ a ∉ apFrames size s₁ ∧ a ≠ 0 := by
    rcases hcases with ⟨rfl, rfl, hnone⟩ | ⟨hunset, hlow, hfits, hsome, rfl, hl⟩
    · refine ⟨fun _ => Iff.rfl, hs.accounts, fun hu => ?_, ?_, left_pages size hwf (.inl ⟨rfl, hold⟩)⟩
      · obtain ⟨q, hq, hap⟩ := hs.apBoot hu
        exact ⟨q, List.mem_append_left _ hq, hap⟩
      · rw [apBootPaddr_append, hs.choice]
        split_ifs with hu
        · exact hnone hu
        · rfl
    · have hmem : d ∈ ds ++ [d] := by simp
      have hchoice : Smp.apBootPaddr size (ds ++ [d]) = some d.physicalStart.toNat := by
        rw [apBootPaddr_append, hs.choice, if_pos hunset]
        exact hsome hd
      refine ⟨fun a => ?_, ⟨hs.accounts.wf, hs.accounts.nodup, hs.accounts.mem⟩,
        fun _ => ⟨d, hmem, hd, hlow, rfl, hfits⟩, hchoice, left_pages size hwf (.inr ⟨hfits, rfl, hl⟩)⟩
      have hnone : apFrames size s = [] := if_pos hunset
      rw [FrameOfMap, FrameOfMap, hnone]
      refine and_congr_right fun ⟨q, hq, _, haq⟩ => and_congr_left fun _ => iff_of_true List.not_mem_nil fun hc => ?_
      have hap : HoldsApBoot size d.physicalStart.toNat d := ⟨hd, hlow, rfl, hfits⟩
      exact hnew q hq a (hap.frames hc) haq
  obtain ⟨hgiven, hacc, hboot, hchoice, hrange, hpages⟩ := hfacts
  cases hl : left.bind skipFrameZero with
  | none =>
    refine Outcome.wp_of_returns (Outcome.returns_pure _ _) ?_
    refine FramesGiven.give hd hgiven (F := fun _ => False) (fun a => ?_) hboot hchoice ⟨rfl, rfl⟩
      (hacc.congr fun a => (iff_of_eq (or_false _)).symm)
    rw [← hpages a, hl]
    simp
  | some l =>
    refine Outcome.wp_bind (Outcome.wp_bind_returns (Outcome.returns_gets _ _) ?_)
    refine Outcome.wp_bind_returns (Outcome.returns_modify _ _) ?_
    refine Outcome.wp_ite (fun _ => Outcome.wp_of_stops (Outcome.stops_stop _ _) trivial) fun hok => ?_
    refine Outcome.wp_of_returns (Outcome.returns_pure _ _) (Outcome.wp_of_returns (Outcome.returns_pure _ _) ?_)
    have hadd := hacc.add (hrange l hl) (fun a ha => hnotYet a ((hpages a).mp ⟨l, hl, ha⟩).1) (not_not.mp hok)
    refine FramesGiven.give hd hgiven (F := (· ∈ (descRange l).pageList)) (fun a => ?_) hboot hchoice ⟨rfl, rfl⟩ hadd
    rw [← hpages a, hl]
    simp

/-- One descriptor. -/
theorem useDescriptor_wp (data : EfiMmapData) (hs : FramesGiven size ds s) (hwf : DescWf d)
    (hnew : ∀ q ∈ ds, ∀ a ∈ (descRange d).pageList, a ∉ (descRange q).pageList) :
    Outcome.wp (fun _ => True) (useDescriptor size data d) (fun _ s' => FramesGiven size (ds ++ [d]) s') s := by
  have hunmap : ∀ l t, FramesGiven size (ds ++ [d]) t →
      Outcome.wp (fun _ => True) (unmapDescriptor data l) (fun _ s' => FramesGiven size (ds ++ [d]) s') t := by
    intro l t ht
    have hkeeps := keeps_unmapDescriptor (I := FramesGiven size (ds ++ [d])) (fun _ m h => h.withMem m)
      (fun _ h => h.alloc) data l
    rcases Outcome.returns_or_stops (unmapDescriptor data l) t with ⟨_, t', hret⟩ | ⟨_, t', hstop⟩
    · exact Outcome.wp_of_returns hret (hkeeps.returns ht hret)
    · exact Outcome.wp_of_stops hstop trivial
  unfold useDescriptor
  refine Outcome.wp_ite (fun hk => ?_) fun _ => Outcome.wp_ite (fun hd => ?_) fun hd => ?_
  · exact Outcome.wp_of_returns (Outcome.returns_pure _ _) (hs.skip (by rw [hk]; rfl))
  · refine Outcome.wp_bind (Outcome.wp_mono (giveFrames_wp hs hwf hd hnew) fun left t ht => ?_)
    cases left with
    | none => exact Outcome.wp_of_returns (Outcome.returns_pure _ _) ht
    | some l => exact hunmap l t ht
  · exact hunmap d s (hs.skip (by simpa using hd))

/-- A usable descriptor. -/
theorem useDescriptor_gives {l : EfiMemoryDescriptor} {s₁ t : Kernel} (hd : d.type.usable = true)
    (hgive : (giveFrames size d).Returns s (some l) s₁) (hunmap : (unmapDescriptor data l).Returns s₁ () t) :
    (useDescriptor size data d).Returns s () t := by
  have hk : d.type ≠ .kernel := by
    intro hc
    rw [hc] at hd
    cases hd
  rw [useDescriptor, if_neg hk, if_pos hd]
  exact hgive.bind hunmap

theorem useDescriptor_other (hd : d.type = .other) : useDescriptor size data d = unmapDescriptor data d := by
  rw [useDescriptor, hd, if_neg (by decide), if_neg (by decide)]

end Filling

/-! ## The run -/

/-- The memory map `ds` lies where `init_mmap` looks for it. -/
structure MapAt (data : EfiMmapData) (ds : List EfiMemoryDescriptor) (s : Kernel) : Prop where
  stride : 0 < data.descriptorSize
  size : data.mmapSize = ds.length * data.descriptorSize
  inside : data.descriptors + data.mmapSize < 2 ^ 64
  read : ∀ k d, ds[k]? = some d → (readDescriptor (data.descAddr k)).Returns s d s

/-- The descriptors of a memory map are pages of the address space, and have no page in common. -/
structure MapWf (ds : List EfiMemoryDescriptor) : Prop where
  wf : ∀ d ∈ ds, DescWf d
  disjoint : ds.Pairwise fun d q => (descRange d).Disjoint (descRange q)

/-- What `init_mmap` starts with. -/
structure AtEntry (s : Kernel) : Prop where
  empty : s.physMmap.rangeCount = 0
  max_lt : s.physMmap.maxRangeCount < 2 ^ 31
  noneOut : s.allocLog = []
  unset : s.apBootPaddrUnset = true

/-- Whenever the loop comes to a descriptor, it is what it was at the start. -/
def DescriptorsKept (size : Nat) (data : EfiMmapData) (s : Kernel) : Prop :=
  ∀ k t, InitMmapRun size data s k t → data.descAddr k < data.efiMmapEnd →
    (readDescriptor (data.descAddr k) t).1 = (readDescriptor (data.descAddr k) s).1

/-- The frames handed out and the free frames are those of the usable descriptors, but for the frames of
the boot image, which lie inside one of them below 1 MiB, and frame 0. -/
structure FramesOfMap (size : Nat) (ds : List EfiMemoryDescriptor) (s : Kernel) : Prop where
  once : (handedOut s ++ s.physMmap.freePages).Nodup
  exact : ∀ a, a ∈ handedOut s ++ s.physMmap.freePages ↔
    (∃ d ∈ ds, d.type.usable = true ∧ a ∈ (descRange d).pageList) ∧
      a ∉ MemoryRange.pageList ⟨s.apBootPaddr, (size + 0xFFF) / 0x1000⟩ ∧ a ≠ 0
  apBoot : ∃ d ∈ ds, d.type.usable = true ∧ d.physicalStart.toNat ≤ 0xFF000 ∧
    ∀ a ∈ MemoryRange.pageList ⟨s.apBootPaddr, (size + 0xFFF) / 0x1000⟩, a ∈ (descRange d).pageList
  others : ∀ d ∈ ds, d.type.usable = false → ∀ a ∈ (descRange d).pageList,
    a ∉ handedOut s ++ s.physMmap.freePages

section Run

variable {size fuel k : Nat} {data : EfiMmapData} {ds : List EfiMemoryDescriptor} {s t t' : Kernel}

theorem apBootPages_eq (size : Nat) : apBootPages size = (size + 0xFFF) / 0x1000 := by
  unfold apBootPages
  split <;> omega

theorem AtEntry.framesGiven (h : AtEntry s) : FramesGiven size [] s := by
  obtain ⟨hempty, hmax, hnone, hunset⟩ := h
  have hranges : s.physMmap.ranges = [] := by
    rw [MemoryMap.ranges, hempty]
    rfl
  have hframes : handedOut s ++ s.physMmap.freePages = [] := by
    rw [handedOut, hnone, MemoryMap.freePages, hranges]
    rfl
  refine ⟨⟨⟨?_, ?_, by omega, hmax⟩, ?_, fun a => ?_⟩, fun hu => ?_, by rw [hunset]; rfl⟩
  · simp [hranges]
  · simp [hranges]
  · rw [hframes]
    exact List.nodup_nil
  · simp [hframes, FrameOfMap]
  · rw [hunset] at hu
    cases hu

/-- The loop is at an address of the map as long as there are descriptors. -/
theorem MapAt.addr_lt (h : MapAt data ds s) (hk : k ≤ ds.length) :
    data.descAddr k < 2 ^ 64 ∧ (data.descAddr k < data.efiMmapEnd ↔ k < ds.length) := by
  obtain ⟨hstride, hsize, hinside, -⟩ := h
  have hle : k * data.descriptorSize ≤ data.mmapSize := hsize ▸ Nat.mul_le_mul_right _ hk
  unfold EfiMmapData.descAddr EfiMmapData.efiMmapEnd
  rw [wrap_of_lt hinside, hsize, Nat.add_lt_add_iff_left, Nat.mul_lt_mul_right hstride]
  exact ⟨by omega, Iff.rfl⟩

/-- The first descriptors have given their frames. -/
theorem InitMmapRun.framesGiven (hrun : InitMmapRun size data s k t) (hentry : AtEntry s) (hmap : MapAt data ds s)
    (hwf : MapWf ds) (hkept : DescriptorsKept size data s) (hk : k ≤ ds.length) : FramesGiven size (ds.take k) t := by
  induction hrun with
  | start => exact hentry.framesGiven
  | @round k t t' hrun hround ih =>
    have hd := List.getElem?_eq_getElem hk
    have hread : (readDescriptor (data.descAddr k)).Returns t ds[k] t := by
      have hsame := hkept k t hrun ((hmap.addr_lt (Nat.le_of_succ_le hk)).2.mpr hk)
      have hstate : (readDescriptor (data.descAddr k) t).2 = t :=
        (keeps_readDescriptor (I := (· = t)) (data.descAddr k)).after rfl
      have hfirst : (readDescriptor (data.descAddr k) s).1 = .ok ds[k] := congrArg Prod.fst (hmap.read k _ hd)
      exact Prod.ext (hsame.trans hfirst) hstate
    -- no page of the next descriptor is one of the descriptors before it
    have hnew : ∀ q ∈ ds.take k, ∀ a ∈ (descRange ds[k]).pageList, a ∉ (descRange q).pageList := by
      intro q hq a ha hc
      obtain ⟨i, hi, rfl⟩ := List.mem_take_iff_getElem.mp hq
      have hdisj := List.pairwise_iff_getElem.mp hwf.disjoint i k (by omega) hk (by omega)
      exact MemoryRange.not_mem_both hdisj hc ha
    have hstep := useDescriptor_wp data (ih (Nat.le_of_succ_le hk)) (hwf.wf _ (List.getElem_mem hk)) hnew
    rw [← List.take_succ_eq_append_getElem hk] at hstep
    exact hround.of_wp (Outcome.wp_bind_returns hread hstep)

/-- A loop that returns has used all descriptors. -/
theorem descriptorLoop_run (hmap : MapAt data ds s) (hrun : InitMmapRun size data s k t) (hk : k ≤ ds.length)
    (hret : (descriptorLoop size data fuel (data.descAddr k)).Returns t () t') :
    InitMmapRun size data s ds.length t' := by
  induction fuel generalizing k t with
  | zero => cases hret
  | succ fuel ih =>
    obtain ⟨hlt, hiff⟩ := hmap.addr_lt hk
    rw [descriptorLoop] at hret
    by_cases hend : data.descAddr k < data.efiMmapEnd
    · have hk' := hiff.mp hend
      rw [if_pos hend] at hret
      obtain ⟨_, t₁, hround, hrest⟩ := Outcome.returns_bind_iff.mp hret
      have hnext : wrap (data.descAddr k + data.descriptorSize) = data.descAddr (k + 1) := by
        have hsum : data.descAddr k + data.descriptorSize = data.descAddr (k + 1) := by
          unfold EfiMmapData.descAddr
          rw [Nat.succ_mul, Nat.add_assoc]
        rw [hsum, wrap_of_lt (hmap.addr_lt hk').1]
      rw [hnext] at hrest
      exact ih (hrun.round hround) hk' hrest
    · rw [if_neg hend] at hret
      obtain ⟨-, rfl⟩ := hret.det (Outcome.returns_pure () t)
      have hall : k = ds.length := by
        have := mt hiff.mpr hend
        omega
      exact hall ▸ hrun

/-- The loop gives the frames of all descriptors, and unmapping the array gives none. -/
theorem initMmap_gives (hentry : AtEntry s) (hmap : MapAt data ds s) (hwf : MapWf ds)
    (hkept : DescriptorsKept size data s) (hret : (initMmap size data fuel).Returns s () t) :
    FramesGiven size ds t ∧ t.apBootPaddrUnset = false := by
  obtain ⟨_, t₁, hdone, hret⟩ := Outcome.returns_bind_iff.mp hret
  have hstart : data.descAddr 0 = data.descriptors := by simp [EfiMmapData.descAddr]
  have hrun := descriptorLoop_run hmap (k := 0) .start (Nat.zero_le _) (hstart ▸ hdone)
  have hgiven := hrun.framesGiven hentry hmap hwf hkept le_rfl
  rw [List.take_length] at hgiven
  obtain ⟨unset, t₂, hgets, hret⟩ := Outcome.returns_bind_iff.mp hret
  obtain ⟨rfl, rfl⟩ := (Outcome.returns_gets Kernel.apBootPaddrUnset t₁).det hgets
  cases hunset : t₁.apBootPaddrUnset with
  | true =>
    rw [hunset] at hret
    cases hret
  | false =>
    have harray : (unmapArray data.efiMmapEnd fuel (pageBase data.descriptors)).Returns t₁ () t := by
      rw [hunset] at hret
      exact hret
    have hkeeps := keeps_unmapArray
      (I := fun u => FramesGiven size ds u ∧ u.apBootPaddrUnset = false) (fun _ m h => ⟨h.1.withMem m, h.2⟩)
      (fun _ h => ⟨h.1.alloc, h.2⟩) data.efiMmapEnd fuel (pageBase data.descriptors)
    exact hkeeps.returns ⟨hgiven, hunset⟩ harray

/-- The frames given from all descriptors are those of the map. -/
theorem FramesGiven.framesOfMap (h : FramesGiven size ds t) (hset : t.apBootPaddrUnset = false) (hwf : MapWf ds) :
    FramesOfMap size ds t := by
  obtain ⟨hacc, hboot, -⟩ := h
  obtain ⟨d, hd, hap⟩ := hboot hset
  have hmem := hacc.mem
  simp only [FrameOfMap, apFrames, hset, if_neg Bool.false_ne_true, apBootPages_eq] at hmem
  refine ⟨hacc.nodup, hmem, ⟨d, hd, hap.usable, hap.low, fun a ha => hap.frames (apBootPages_eq size ▸ ha)⟩, ?_⟩
  intro q hq hqu a ha hc
  obtain ⟨⟨r, hr, hru, har⟩, -⟩ := (hmem a).mp hc
  have hne : q ≠ r := by
    rintro rfl
    rw [hqu] at hru
    cases hru
  have hsymm : Std.Symm fun d q => (descRange d).Disjoint (descRange q) := ⟨fun _ _ h => h.symm⟩
  exact MemoryRange.not_mem_both (hwf.disjoint.forall hq hr hne) ha har

/-- **`init_mmap`.** In every run that comes to each descriptor as it was at the start, the frames are
those of the map. -/
theorem initMmap_frames (hentry : AtEntry s) (hmap : MapAt data ds s) (hwf : MapWf ds)
    (hkept : DescriptorsKept size data s) (hret : (initMmap size data fuel).Returns s () t) :
    FramesOfMap size ds t := by
  obtain ⟨hgiven, hset⟩ := initMmap_gives hentry hmap hwf hkept hret
  exact hgiven.framesOfMap hset hwf

end Run

/-! ## An array in the first usable frame -/

/-- Store words in frame 22. -/
def storeWords (m : Mem) (ws : List (Fin 512 × Nat)) : Mem :=
  ws.foldl (fun m w => m.store64 (4096 * 22 + 8 * w.1) w.2) m

/-- The types, addresses and numbers of pages of two descriptors. -/
def arrayWords : List (Fin 512 × Nat) := [(16, 4), (17, 0x10000), (19, 10), (22, 7), (23, 0x100000), (25, 1)]

/-- The first 2 MiB are mapped as one page, and the array lies in frame 22. -/
def bootKernel : Kernel :=
  { windowOnly with
    mem := storeWords (twoTables.store64 (4096 * 3 + 8 * (0 : Fin 512)) 0x83) arrayWords
    physMmap := ⟨fun _ => ⟨0, 0⟩, 0, 256⟩ }

/-- The first `n` descriptors of the array. -/
def arrayOf (n : Nat) : EfiMmapData := ⟨0x16080, n * 48, 48⟩

/-- The stack of the loader, where the array lies. -/
def lowPages : EfiMemoryDescriptor := ⟨.bootServicesData, 0x10000, 10⟩

def highPage : EfiMemoryDescriptor := ⟨.conventionalMemory, 0x100000, 1⟩

theorem tables_storeWords (m : Mem) {ws : List (Fin 512 × Nat)} (h : ∀ w ∈ ws, w.2 < 2 ^ 64) :
    tables (storeWords m ws) = ws.foldl (fun T w => T.set 22 w.1 w.2) (tables m) := by
  induction ws generalizing m with
  | nil => rfl
  | cons w ws ih =>
    obtain ⟨hw, hws⟩ := List.forall_mem_cons.mp h
    show tables (storeWords (m.store64 _ _) ws) = _
    rw [ih _ hws, tables_store64 m 22 w.1 hw]
    rfl

/-- Other frames do not see the array. -/
theorem rows_storeWords (m : Mem) {ws : List (Fin 512 × Nat)} (h : ∀ w ∈ ws, w.2 < 2 ^ 64) {n : Nat} (hn : n ≠ 22) :
    tables (storeWords m ws) n = tables m n := by
  rw [tables_storeWords m h]
  clear h
  generalize tables m = T
  induction ws generalizing T with
  | nil => rfl
  | cons w ws ih =>
    refine (ih (T.set 22 w.1 w.2)).trans ?_
    funext i
    exact Tables.set_apply_of_ne (.inl hn)

theorem arrayWords_lt : ∀ w ∈ arrayWords, w.2 < 2 ^ 64 := by decide

theorem leafSlot_low {v : Nat} (hv : v < 0x200000) :
    canonical v = true ∧ index v 39 ≠ 511 ∧ LeafSlot v 21 [0, 0] 0 := by
  have h₃₉ : index v 39 = 0 := Fin.ext (by simp only [index]; omega)
  have h₃₀ : index v 30 = 0 := Fin.ext (by simp only [index]; omega)
  have h₂₁ : index v 21 = 0 := Fin.ext (by simp only [index]; omega)
  have hslot : LeafSlot v 21 [index v 39, index v 30] (index v 21) := .size2M
  rw [h₃₉, h₃₀, h₂₁] at hslot
  refine ⟨?_, by rw [h₃₉]; decide, hslot⟩
  simp only [canonical, Bool.or_eq_true, decide_eq_true_eq]
  omega

/-- The tables and the large page. -/
theorem bootKernel_tables : PageTables bootKernel.mem bootKernel.cr3 ∧
    (∀ n, IsTable bootKernel.mem bootKernel.cr3 n → n = 1 ∨ n = 2 ∨ n = 3) ∧
    tableAt bootKernel.mem bootKernel.cr3 [0, 0] = some 3 ∧ tables bootKernel.mem 3 0 = 0x83 ∧
    ∀ v < 0x200000, walk bootKernel.mem bootKernel.cr3 v = some (0x83, 21) := by
  have hm := tables_store64 twoTables 3 0 (e := 0x83) (by decide)
  have hmem : bootKernel.mem = storeWords (twoTables.store64 (4096 * 3 + 8 * (0 : Fin 512)) 0x83) arrayWords := rfl
  generalize twoTables.store64 (4096 * 3 + 8 * (0 : Fin 512)) 0x83 = m at hm hmem
  have hlow : ∀ v < 0x200000, _ := fun v hv =>
    largePage_twoTables hm (leafSlot_low hv).1 (leafSlot_low hv).2.1 (leafSlot_low hv).2.2 rfl rfl
  obtain ⟨hpt, htables, -, hn, he⟩ := hlow 0 (by decide)
  -- the words of the array are in no table
  have hrows : ∀ n, IsTable m windowOnly.cr3 n → tables bootKernel.mem n = tables m n := by
    intro n ht
    rw [hmem]
    refine rows_storeWords m arrayWords_lt ?_
    have := htables n ht
    omega
  have hstep : DataStep { bootKernel with mem := m } bootKernel := ⟨rfl, hrows⟩
  have hpaths : ∀ q, tablePaths.mem q → tableAt bootKernel.mem bootKernel.cr3 q = tableAt m windowOnly.cr3 q :=
    fun q hq => hstep.tableAt hq
  refine ⟨hstep.pageTables hpt, fun n ht => htables n ((hstep.isTable n).mp ht), (hpaths _ ?_).trans hn, ?_,
    fun v hv => ?_⟩
  · exact (leafSlot_low (v := 0) (by decide)).2.2.mem (by decide)
  · rw [hmem, rows_storeWords m arrayWords_lt (by decide)]
    exact he
  · exact (hstep.walk (leafSlot_low hv).2.1).trans (hlow v hv).2.2.1

/-- Addresses of the large page are physical addresses. -/
theorem bootKernel_translate {v : Nat} (hv : v < 0x200000) :
    Paging.translate bootKernel.mem bootKernel.cr3 v = some v := by
  rw [Paging.translate, bootKernel_tables.2.2.2.2 v hv, Option.map_some]
  refine congrArg some ?_
  show 0x83 / 2 ^ 21 % 2 ^ (52 - 21) * 2 ^ 21 + v % 2 ^ 21 = v
  omega

/-- A word of the array. -/
theorem bootKernel_word {x : Nat} (i : Fin 512)
    (hx : ∀ T : Tables Nat (Fin 512) Nat, arrayWords.foldl (fun T w => T.set 22 w.1 w.2) T 22 i = x) :
    (readWord (4096 * 22 + 8 * i)).Returns bootKernel x bootKernel := by
  have hi := i.isLt
  have hword : tables bootKernel.mem 22 i = x := by
    rw [bootKernel, tables_storeWords _ arrayWords_lt]
    exact hx _
  rw [← hword]
  exact readEntry (bootKernel_translate (by omega))

theorem bootKernel_map : MapAt (arrayOf 2) [lowPages, highPage] bootKernel := by
  refine ⟨by decide, rfl, by decide, fun k d hd => ?_⟩
  have hk : k = 0 ∧ d = lowPages ∨ k = 1 ∧ d = highPage := by
    match k with
    | 0 => exact .inl ⟨rfl, (Option.some.inj hd).symm⟩
    | 1 => exact .inr ⟨rfl, (Option.some.inj hd).symm⟩
    | k + 2 => cases hd
  rcases hk with ⟨rfl, rfl⟩ | ⟨rfl, rfl⟩
  · exact (bootKernel_word 16 fun _ => rfl).bind ((bootKernel_word 17 fun _ => rfl).bind
      ((bootKernel_word 19 fun _ => rfl).bind (Outcome.returns_pure _ _)))
  · exact (bootKernel_word 22 fun _ => rfl).bind ((bootKernel_word 23 fun _ => rfl).bind
      ((bootKernel_word 25 fun _ => rfl).bind (Outcome.returns_pure _ _)))

theorem bootKernel_mapWf : MapWf [lowPages, highPage] := by
  refine ⟨?_, ?_⟩
  · simp only [List.forall_mem_cons, List.not_mem_nil, false_imp_iff, implies_true, and_true]
    exact ⟨⟨by decide, by decide, by decide⟩, ⟨by decide, by decide, by decide⟩⟩
  · exact List.pairwise_pair.mpr (.inl (by decide))

theorem bootKernel_atEntry : AtEntry bootKernel := ⟨rfl, by decide, rfl, rfl⟩

/-- The kernel after the frames of the first descriptor have been given. -/
def givenKernel : Kernel :=
  { bootKernel with
    apBootPaddrUnset := false
    apBootPaddr := 0x10000
    physMmap := (mmapAddRange bootKernel.physMmap 0x16000 4).2 }

theorem bootKernel_giveFrames :
    (giveFrames 0x5022 lowPages).Returns bootKernel (some ⟨.bootServicesData, 0x16000, 4⟩) givenKernel := rfl

/-- The large page has been split with frame 22, and the page of the array is mapped. -/
structure SplitLow (t : Kernel) : Prop where
  pageTables : PageTables t.mem t.cr3
  pageTable : tableAt t.mem t.cr3 [0, 0, 0] = some 22
  array : walk t.mem t.cr3 0x16000 = some (0x16003, 12)

theorem SplitLow.ptAt {t : Kernel} (h : SplitLow t) {v : Nat} (hv : v < 0x200000) : ptAt t.mem t.cr3 v = some 22 := by
  have h₃₉ : index v 39 = 0 := Fin.ext (by simp only [index]; omega)
  have h₃₀ : index v 30 = 0 := Fin.ext (by simp only [index]; omega)
  have h₂₁ : index v 21 = 0 := Fin.ext (by simp only [index]; omega)
  rw [Paging.ptAt, h₃₉, h₃₀, h₂₁]
  exact h.pageTable

/-- A page of the large page is unmapped. -/
theorem unmap_low {P : Nat → Prop} {s : Kernel} {v : Nat} (hv : v < 0x200000) (hpt : PageTables s.mem s.cr3)
    (hn : tableAt s.mem s.cr3 [0, 0] = some 3) (he : tables s.mem 3 0 = 0x83) (hsupply : FrameSupply P s (splitTables 21))
    (hlen : splitTables 21 ≤ s.physMmap.freePages.length) : ∃ t, (unmapPageFixSize v).Returns s () t ∧
      UnmapTakes s t v 21 (0x83 &&& 0xFFFFFFFFF000) (0x83 &&& 0x3E) := by
  obtain ⟨hc, hslot₃₉, hslot⟩ := leafSlot_low hv
  have hsize : pageSize (tables s.mem 3 0) = true := by
    rw [he]
    rfl
  have hends := unmapPageFixSize_takes hpt hc hslot₃₉ hslot (by decide) hn hsize hsupply
  obtain ⟨_, t, hret, -, hs⟩ := Outcome.returns_of_ends hends fun _ h => absurd hlen (Nat.not_le_of_lt h.2)
  rw [he] at hs
  exact ⟨t, hret, hs⟩

/-- The first page that is unmapped. -/
theorem givenKernel_split : ∃ t, (unmapPageFixSize 0x17000).Returns givenKernel () t ∧ SplitLow t := by
  have hmem : givenKernel.mem = bootKernel.mem := rfl
  have hcr3 : givenKernel.cr3 = bootKernel.cr3 := rfl
  obtain ⟨hpt, htables, hn, he, -⟩ := bootKernel_tables
  rw [← hmem, ← hcr3] at hpt htables hn
  rw [← hmem] at he
  have hframes : (takeFrames 1 givenKernel.physMmap).1 = [0x16000] := by decide
  have hwf : givenKernel.physMmap.Wf := by
    have hgiven := bootKernel_giveFrames.of_wp (giveFrames_wp bootKernel_atEntry.framesGiven
      (bootKernel_mapWf.wf lowPages List.mem_cons_self) rfl (by simp))
    exact hgiven.accounts.wf
  have hpages : givenKernel.physMmap.freePages = [0x16000, 0x17000, 0x18000, 0x19000] := by decide
  have hsupply : FrameSupply (fun _ => True) givenKernel (splitTables 21) := by
    refine ⟨hwf, fun a ha => ?_⟩
    rw [show splitTables 21 = 1 from rfl, hpages, List.take_succ_cons, List.take_zero, List.mem_singleton] at ha
    subst ha
    refine ⟨⟨⟨by decide, by decide⟩, by decide, fun ht => ?_⟩, trivial⟩
    have := htables _ ht
    omega
  have hlen : splitTables 21 ≤ givenKernel.physMmap.freePages.length := by
    rw [hpages]
    decide
  obtain ⟨t, hret, hs⟩ := unmap_low (v := 0x17000) (by decide) hpt hn he hsupply hlen
  obtain ⟨k, hk, hedits⟩ := hs.edits
  refine ⟨t, hret, hedits.pageTables, ?_, hs.mapped 0x16000 (by decide) (by decide)⟩
  obtain ⟨n, hn', -⟩ := hs.entry
  have hn' : tableAt t.mem t.cr3 [0, 0, 0] = some n := hn'
  -- three tables were there before, in three frames, and the page table is none of them
  have hpath : tablePaths.mem [0, 0, 0] := ⟨by decide, by simp⟩
  have hpath₁ : tablePaths.mem [0] := ⟨by decide, by simp⟩
  have hpath₂ : tablePaths.mem [0, 0] := ⟨by decide, by simp⟩
  obtain ⟨n₁, hn₁⟩ : ∃ m, tableAt givenKernel.mem givenKernel.cr3 [0] = some m :=
    tableAt_of_isPrefix hn ⟨[0], rfl⟩
  have hnew : ∀ q m, tablePaths.mem q → q ≠ [0, 0, 0] → tableAt givenKernel.mem givenKernel.cr3 q = some m → n ≠ m :=
    fun q m hq hne hm => hedits.pageTables.table_ne hpath hq hn' (hedits.keep q m hq hm) hne.symm
  have hroot : tableAt givenKernel.mem givenKernel.cr3 [] = some 1 := by
    show some (frameOf 0x1000) = some 1
    decide
  have h₀ := hnew [] 1 tablePaths.nil_mem (by decide) hroot
  have h₁ := hnew [0] n₁ hpath₁ (by decide) hn₁
  have h₂ := hnew [0, 0] 3 hpath₂ (by decide) hn
  have h₁₀ : n₁ ≠ 1 := hpt.table_ne hpath₁ tablePaths.nil_mem hn₁ hroot (by decide)
  have h₁₂ : n₁ ≠ 3 := hpt.table_ne hpath₁ hpath₂ hn₁ hn (by decide)
  have hthree := htables n₁ ⟨_, hpath₁, hn₁⟩
  rcases hedits.reach n ⟨_, hpath, hn'⟩ with ht | ht
  · have := htables n ht
    omega
  · have hone : k = 0 ∨ k = 1 := by
      rw [show splitTables 21 = 1 from rfl] at hk
      omega
    rcases hone with rfl | rfl
    · cases ht
    · rw [hframes, List.map_singleton, List.mem_singleton] at ht
      rw [hn', ht]

/-- The other pages of the block. -/
theorem SplitLow.unmap {t : Kernel} (h : SplitLow t) {v : Nat} (hv : v < 0x200000) (ha : v % 4096 = 0) :
    ∃ t', (unmapPageFixSize v).Returns t () t' ∧ PageTables t'.mem t'.cr3 ∧ (v ≠ 0x16000 → SplitLow t') ∧
      tables t'.mem 22 (index v 12) = 0 := by
  obtain ⟨hc, hslot, -⟩ := leafSlot_low hv
  have hpt := h.ptAt hv
  obtain ⟨t', hret, hedit, -⟩ := unmapPageFixSize_small h.pageTables ⟨hc, ha, hslot⟩ hpt
  have hpath : tablePaths.mem [0, 0, 0] := ⟨by decide, by simp⟩
  have hsplit : v ≠ 0x16000 → SplitLow t' := fun hne =>
    ⟨hedit.pageTables, hedit.keep _ _ hpath h.pageTable, (hedit.others 0x16000 (by decide) (by omega)).trans h.array⟩
  refine ⟨t', hret, hedit.pageTables, hsplit, ?_⟩
  obtain ⟨n, hn, hzero⟩ := hedit.ptAt
  have hpathv : tablePaths.mem [index v 39, index v 30, index v 21] := (UpperOf.pd.mem hslot).2
  have hn' : Paging.ptAt t'.mem t'.cr3 v = some 22 := hedit.keep _ _ hpathv hpt
  obtain rfl : n = 22 := Option.some.inj (hn.symm.trans hn')
  exact hzero

/-- The words of frame 22 are read where they lie. -/
theorem SplitLow.word {t : Kernel} (h : SplitLow t) (i : Fin 512) :
    (readWord (4096 * 22 + 8 * i)).Returns t (tables t.mem 22 i) t ∧ tables t.mem 22 22 = 0x16003 := by
  have hi := i.isLt
  have harray := h.array
  rw [walk_of_ptAt (by decide) (h.ptAt (by decide)), show index 0x16000 12 = 22 from rfl] at harray
  split_ifs at harray with hpres
  have he : tables t.mem 22 22 = 0x16003 := congrArg Prod.fst (Option.some.inj harray)
  refine ⟨readEntry ?_, he⟩
  have hindex : index (4096 * 22 + 8 * i) 12 = 22 := Fin.ext (by simp only [index]; omega)
  have hlow := leafSlot_low (v := 4096 * 22 + 8 * i) (by omega)
  rw [Paging.translate, walk_of_ptAt hlow.1 (h.ptAt (by omega)), hindex, he, if_pos (by decide), Option.map_some,
    leafAddr_small, show frameOf 0x16003 = 22 by decide]
  refine congrArg some ?_
  omega

/-- What is left of the first descriptor is unmapped, but for the page of the array. -/
theorem givenKernel_unmap {n : Nat} (hn : n = 1 ∨ n = 2) : ∃ t,
    (unmapDescriptor (arrayOf n) ⟨.bootServicesData, 0x16000, 4⟩).Returns givenKernel () t ∧ SplitLow t ∧
      tables t.mem 22 25 = 0 := by
  obtain ⟨t₁, hret₁, hs₁⟩ := givenKernel_split
  obtain ⟨t₂, hret₂, -, hs₂, -⟩ := hs₁.unmap (v := 0x18000) (by decide) (by decide)
  obtain ⟨t₃, hret₃, -, hs₃, hzero⟩ := (hs₂ (by decide)).unmap (v := 0x19000) (by decide) (by decide)
  refine ⟨t₃, ?_, hs₃ (by decide), hzero⟩
  have hguard : pageBase (arrayOf n).descriptors = 0x16000 ∧ pageBase (arrayOf n).efiMmapEnd = 0x16000 := by
    rcases hn with rfl | rfl <;> decide
  have hloop : unmapDescriptor (arrayOf n) ⟨.bootServicesData, 0x16000, 4⟩ = Outcome.loop 0 4 fun i =>
      if wrap (0x16000 + i * 0x1000) < 0x16000 ∨ wrap (0x16000 + i * 0x1000) > 0x16000 then
        unmapPageFixSize (wrap (0x16000 + i * 0x1000))
      else pure () := by
    unfold unmapDescriptor
    rw [hguard.1, hguard.2]
    rfl
  rw [hloop, Outcome.loop_succ, Outcome.loop_succ, Outcome.loop_succ, Outcome.loop_succ, Outcome.loop_zero,
    if_neg (by decide), if_pos (by decide), if_pos (by decide), if_pos (by decide)]
  exact (Outcome.returns_pure () _).bind (hret₁.bind (hret₂.bind (hret₃.bind (Outcome.returns_pure () t₃))))

/-- The run on the first descriptor alone, and on both. -/
theorem bootKernel_run {n : Nat} (hn : n = 1 ∨ n = 2) : ∃ t,
    (initMmap 0x5022 (arrayOf n) 3).Returns bootKernel () t ∧ FramesGiven 0x5022 [lowPages] t ∧
      t.apBootPaddrUnset = false := by
  obtain ⟨t, hunmap, hs, hzero⟩ := givenKernel_unmap hn
  obtain ⟨u, hlast, -, -, -⟩ := hs.unmap (v := 0x16000) (by decide) (by decide)
  have hread : (readDescriptor 0x16080).Returns bootKernel lowPages bootKernel := by
    have h := bootKernel_map.read 0 lowPages rfl
    rwa [show (arrayOf 2).descAddr 0 = 0x16080 by decide] at h
  have hround₀ : (initMmapRound 0x5022 (arrayOf n) 0x16080).Returns bootKernel () t :=
    hread.bind (useDescriptor_gives rfl bootKernel_giveFrames hunmap)
  -- the second descriptor is read from the page table
  have hround₁ : (initMmapRound 0x5022 (arrayOf n) 0x160B0).Returns t () t := by
    have htype := (hs.word 22).1
    have hpages := (hs.word 25).1
    rw [(hs.word 22).2] at htype
    rw [hzero] at hpages
    have hdesc : (readDescriptor 0x160B0).Returns t ⟨.other, .ofNat (tables t.mem 22 23), 0⟩ t :=
      htype.bind ((hs.word 23).1.bind (hpages.bind (Outcome.returns_pure _ t)))
    refine hdesc.bind ?_
    rw [useDescriptor_other rfl]
    exact Outcome.returns_pure () t
  have hloop : (descriptorLoop 0x5022 (arrayOf n) 3 0x16080).Returns bootKernel () t := by
    have hnext : wrap (0x16080 + 48) = 0x160B0 ∧ wrap (0x160B0 + 48) = 0x160E0 := by decide
    rcases hn with rfl | rfl
    · have hend : (arrayOf 1).efiMmapEnd = 0x160B0 := by decide
      rw [descriptorLoop, hend, if_pos (by decide), show (arrayOf 1).descriptorSize = 48 from rfl, hnext.1]
      refine hround₀.bind ?_
      rw [descriptorLoop, hend, if_neg (by decide)]
      exact Outcome.returns_pure () t
    · have hend : (arrayOf 2).efiMmapEnd = 0x160E0 := by decide
      rw [descriptorLoop, hend, if_pos (by decide), show (arrayOf 2).descriptorSize = 48 from rfl, hnext.1]
      refine hround₀.bind ?_
      rw [descriptorLoop, hend, if_pos (by decide), show (arrayOf 2).descriptorSize = 48 from rfl, hnext.2]
      refine hround₁.bind ?_
      rw [descriptorLoop, hend, if_neg (by decide)]
      exact Outcome.returns_pure () t
  -- the page of the array is unmapped last
  have hlast : (unmapArray (arrayOf n).efiMmapEnd 3 0x16000).Returns t () u := by
    have hend : 0x16000 ≤ (arrayOf n).efiMmapEnd ∧ ¬0x17000 ≤ (arrayOf n).efiMmapEnd := by
      rcases hn with rfl | rfl <;> decide
    rw [unmapArray, if_pos hend.1, show wrap (0x16000 + 0x1000) = 0x17000 by decide]
    refine hlast.bind ?_
    rw [unmapArray, if_neg hend.2]
    exact Outcome.returns_pure () u
  have hmem : ∀ s m, FramesGiven 0x5022 [lowPages] s ∧ s.apBootPaddrUnset = false →
      FramesGiven 0x5022 [lowPages] { s with mem := m } ∧ s.apBootPaddrUnset = false :=
    fun _ m h => ⟨h.1.withMem m, h.2⟩
  have halloc : ∀ s, FramesGiven 0x5022 [lowPages] s ∧ s.apBootPaddrUnset = false →
      FramesGiven 0x5022 [lowPages] (s.allocated 1) ∧ s.apBootPaddrUnset = false := fun _ h => ⟨h.1.alloc, h.2⟩
  have hgiven : FramesGiven 0x5022 [lowPages] givenKernel :=
    bootKernel_giveFrames.of_wp (giveFrames_wp bootKernel_atEntry.framesGiven
      (bootKernel_mapWf.wf lowPages List.mem_cons_self) rfl (by simp))
  have ht := (keeps_unmapDescriptor hmem halloc _ _).returns ⟨hgiven, rfl⟩ hunmap
  have hu := (keeps_unmapArray hmem halloc _ _ _).returns ht hlast
  refine ⟨u, hloop.bind ((Outcome.returns_gets _ t).bind ?_), hu⟩
  rw [ht.2]
  have hbase : pageBase (arrayOf n).descriptors = 0x16000 := by
    show pageBase 0x16080 = 0x16000
    decide
  rw [hbase]
  exact hlast

/-- The first usable frame, where the array lies, becomes a page table, and the second descriptor is read
from it: its frame is lost. -/
theorem initMmap_loses : AtEntry bootKernel ∧ MapAt (arrayOf 2) [lowPages, highPage] bootKernel ∧
    MapWf [lowPages, highPage] ∧ ∃ t, (initMmap 0x5022 (arrayOf 2) 3).Returns bootKernel () t ∧
      ¬FramesOfMap 0x5022 [lowPages, highPage] t := by
  obtain ⟨t, hret, ⟨hacc, hboot, -⟩, hset⟩ := bootKernel_run (.inr rfl)
  refine ⟨bootKernel_atEntry, bootKernel_map, bootKernel_mapWf, t, hret, fun h => ?_⟩
  have hmem : 0x100000 ∈ (descRange highPage).pageList := by decide
  have hlow : ∀ a ∈ (descRange lowPages).pageList, a ≠ 0x100000 := by decide
  have hlost : 0x100000 ∉ handedOut t ++ t.physMmap.freePages := by
    rw [hacc.mem]
    rintro ⟨⟨d, hd, -, ha⟩, -⟩
    rw [List.mem_singleton.mp hd] at ha
    exact hlow _ ha rfl
  obtain ⟨d, hd, hap⟩ := hboot hset
  refine hlost ((h.exact _).mpr ⟨⟨highPage, by simp, rfl, hmem⟩, fun hc => ?_, by decide⟩)
  rw [List.mem_singleton.mp hd] at hap
  exact hlow _ (hap.frames hc) rfl

end KoalemOS.Heap
