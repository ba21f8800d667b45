import Mathlib.Data.List.Basic
import Mathlib.Tactic.NormNum

/-!
# The graphics mode (`src/boot/boot.c`)

`efi_main` asks the firmware for its graphics modes and keeps the one it likes best. The pixel
count of a mode is compared with the number of the best mode so far, which is uninitialised
before the first one. So the loop finds the largest mode only when it has more pixels than there
are mode numbers and no later mode has more pixels than its number (`selectsLargest_iff`).
-/

namespace KoalemOS.Boot

/-! ## The code -/

/-- `EFI_GRAPHICS_PIXEL_FORMAT` -/
inductive PixelFormat where
  | pixelRedGreenBlueReserved8BitPerColor
  | pixelBlueGreenRedReserved8BitPerColor
  | pixelBitMask
  | pixelBltOnly
  deriving DecidableEq

/-- `EFI_GRAPHICS_OUTPUT_MODE_INFORMATION`; the resolutions are `UINT32`. -/
structure ModeInfo where
  pixelFormat : PixelFormat
  horizontalResolution : Nat
  verticalResolution : Nat
  hres_lt : horizontalResolution < 2 ^ 32
  vres_lt : verticalResolution < 2 ^ 32

/-- `MAX_HRES` and `MAX_VRES`, where they are defined. -/
structure MaxRes where
  maxHres : Option Nat
  maxVres : Option Nat

/-- The test of a limit that may not be defined. -/
def exceeds (x : Nat) : Option Nat → Bool
  | none => false
  | some limit => x > limit

/-- `max_pixel_count` and `best_mode_num` -/
structure BestMode where
  maxPixelCount : Nat
  bestModeNum : Nat

/-- `pixel_count`; the product of two `UINT32` fits in its 64 bits. -/
def ModeInfo.pixelCount (info : ModeInfo) : Nat := info.horizontalResolution * info.verticalResolution

/-- The body of the mode loop; there is no mode where `QueryMode` fails. -/
def modeStep (limits : MaxRes) (s : BestMode) : Option ModeInfo × Nat → BestMode
  | (none, _) => s
  | (some info, modeNum) =>
    if info.pixelFormat = .pixelBlueGreenRedReserved8BitPerColor then
      if exceeds info.horizontalResolution limits.maxHres then s
      else if exceeds info.verticalResolution limits.maxVres then s
      else if info.pixelCount > s.bestModeNum then ⟨info.pixelCount, modeNum⟩
      else s
    else s

/-- The mode loop, from what is in `best_mode_num` before it. -/
def modeLoop (limits : MaxRes) (bestModeNum : Nat) (modes : List (Option ModeInfo)) : BestMode :=
  modes.zipIdx.foldl (modeStep limits) ⟨0, bestModeNum⟩

/-- The mode that is set, or `EFI_UNSUPPORTED`. -/
def selectMode (limits : MaxRes) (bestModeNum : Nat) (modes : List (Option ModeInfo)) : Option Nat :=
  let best := modeLoop limits bestModeNum modes
  if best.maxPixelCount = 0 then none else some best.bestModeNum

/-! ## What it is for -/

/-- The kernel can draw in the mode, and it is not too large. -/
structure Usable (limits : MaxRes) (info : ModeInfo) : Prop where
  format : info.pixelFormat = .pixelBlueGreenRedReserved8BitPerColor
  hres : exceeds info.horizontalResolution limits.maxHres = false
  vres : exceeds info.verticalResolution limits.maxVres = false

/-- The numbered modes have a usable mode `n` with `p` pixels. -/
def Offers (limits : MaxRes) (ms : List (Option ModeInfo × Nat)) (n p : Nat) : Prop :=
  ∃ info, (some info, n) ∈ ms ∧ Usable limits info ∧ info.pixelCount = p ∧ 0 < p

/-- The mode has the most pixels of all usable modes. -/
def IsLargest (limits : MaxRes) (modes : List (Option ModeInfo)) (n : Nat) : Prop :=
  ∃ p, Offers limits modes.zipIdx n p ∧ ∀ n' p', Offers limits modes.zipIdx n' p' → p' ≤ p

/-- The largest mode is selected; there is none only if no mode is usable. -/
def Selects (limits : MaxRes) (modes : List (Option ModeInfo)) : Option Nat → Prop
  | none => ∀ n p, ¬Offers limits modes.zipIdx n p
  | some n => IsLargest limits modes n

/-- Whatever is in `best_mode_num` before the loop, it selects the largest mode. -/
def SelectsLargest (limits : MaxRes) (modes : List (Option ModeInfo)) : Prop :=
  ∀ bestModeNum < 2 ^ 32, Selects limits modes (selectMode limits bestModeNum modes)

/-! ## The loop -/

variable {limits : MaxRes} {modes : List (Option ModeInfo)} {ms : List (Option ModeInfo × Nat)}
  {m : Option ModeInfo × Nat} {s : BestMode} {n p : Nat}

theorem Offers.cons (h : Offers limits ms n p) : Offers limits (m :: ms) n p := by
  obtain ⟨info, hmem, h⟩ := h
  exact ⟨info, List.mem_cons_of_mem m hmem, h⟩

theorem Offers.cases (h : Offers limits (m :: ms) n p) : Offers limits [m] n p ∨ Offers limits ms n p := by
  obtain ⟨info, hmem, h⟩ := h
  rcases List.mem_cons.mp hmem with rfl | hmem
  · exact .inl ⟨info, List.mem_singleton_self _, h⟩
  · exact .inr ⟨info, hmem, h⟩

theorem Offers.mem (h : Offers limits ms n p) : ∃ m ∈ ms, m.2 = n := by
  obtain ⟨info, hmem, -⟩ := h
  exact ⟨_, hmem, rfl⟩

/-- A mode is taken if it is usable and has more pixels than the number of the best one. -/
theorem modeStep_cases (limits : MaxRes) (s : BestMode) (m : Option ModeInfo × Nat) :
    (modeStep limits s m = s ∧ ∀ n p, Offers limits [m] n p → p ≤ s.bestModeNum) ∨
    ∃ p, Offers limits [m] m.2 p ∧ s.bestModeNum < p ∧ modeStep limits s m = ⟨p, m.2⟩ := by
  obtain ⟨mode, num⟩ := m
  cases mode with
  | none =>
    refine .inl ⟨rfl, fun n p h => ?_⟩
    obtain ⟨info, hmem, -⟩ := h
    cases List.mem_singleton.mp hmem
  | some info =>
    -- the mode that is offered is this one
    have hthis : ∀ {n p}, Offers limits [(some info, num)] n p → Usable limits info ∧ info.pixelCount = p := by
      intro n p h
      obtain ⟨info', hmem, husable, hcount, -⟩ := h
      cases List.mem_singleton.mp hmem
      exact ⟨husable, hcount⟩
    unfold modeStep
    dsimp only
    split_ifs with hformat hh hv hlt
    · refine .inl ⟨rfl, fun n p h => ?_⟩
      rw [(hthis h).1.hres] at hh
      cases hh
    · refine .inl ⟨rfl, fun n p h => ?_⟩
      rw [(hthis h).1.vres] at hv
      cases hv
    · have husable : Usable limits info := ⟨hformat, Bool.eq_false_iff.mpr hh, Bool.eq_false_iff.mpr hv⟩
      exact .inr ⟨info.pixelCount, ⟨info, List.mem_singleton_self _, husable, rfl, by omega⟩, hlt, rfl⟩
    · refine .inl ⟨rfl, fun n p h => ?_⟩
      rw [← (hthis h).2]
      exact Nat.not_lt.mp hlt
    · exact .inl ⟨rfl, fun n p h => absurd (hthis h).1.format hformat⟩

/-- Modes that do not have more pixels than the number of the best one are not taken. -/
theorem foldl_modeStep_same (h : ∀ n p, Offers limits ms n p → p ≤ s.bestModeNum) :
    ms.foldl (modeStep limits) s = s := by
  induction ms with
  | nil => rfl
  | cons m ms ih =>
    rw [List.foldl_cons]
    rcases modeStep_cases limits s m with ⟨hsame, -⟩ | ⟨p, hoffers, hlt, -⟩
    · rw [hsame]
      exact ih fun n p hoffers => h n p hoffers.cons
    · obtain ⟨info, hmem, hrest⟩ := hoffers
      rw [List.mem_singleton] at hmem
      have := h m.2 p ⟨info, hmem ▸ List.mem_cons_self, hrest⟩
      omega

/-- The loop leaves the best mode as it was, or at a mode whose number no later mode has more
pixels than. -/
theorem foldl_modeStep_cases (limits : MaxRes) (hsorted : ms.Pairwise fun m m' => m.2 < m'.2) (s : BestMode) :
    (ms.foldl (modeStep limits) s = s ∧ ∀ n p, Offers limits ms n p → p ≤ s.bestModeNum) ∨
    ∃ n p, ms.foldl (modeStep limits) s = ⟨p, n⟩ ∧ Offers limits ms n p ∧
      ∀ n' p', n < n' → Offers limits ms n' p' → p' ≤ n := by
  induction ms generalizing s with
  | nil =>
    refine .inl ⟨rfl, fun n p h => ?_⟩
    obtain ⟨m, hm, -⟩ := h.mem
    cases hm
  | cons m ms ih =>
    obtain ⟨hhead, htail⟩ := List.pairwise_cons.mp hsorted
    rw [List.foldl_cons]
    rcases ih htail (modeStep limits s m) with ⟨hsame, hle⟩ | ⟨n, p, heq, hoffers, hle⟩
    · -- no later mode is taken
      rcases modeStep_cases limits s m with ⟨hkept, hle'⟩ | ⟨p, hoffers, -, htaken⟩
      · rw [hkept] at hsame hle
        rw [hkept]
        exact .inl ⟨hsame, fun n p h => h.cases.elim (hle' n p) (hle n p)⟩
      · rw [htaken] at hsame hle
        rw [htaken]
        obtain ⟨info, hmem, hrest⟩ := hoffers
        rw [List.mem_singleton] at hmem
        refine .inr ⟨m.2, p, hsame, ⟨info, hmem ▸ List.mem_cons_self, hrest⟩, fun n' p' hlt h => ?_⟩
        rcases h.cases with h | h
        · obtain ⟨m', hm', rfl⟩ := h.mem
          rw [List.mem_singleton.mp hm'] at hlt
          omega
        · exact hle n' p' h
    · refine .inr ⟨n, p, heq, hoffers.cons, fun n' p' hlt h => ?_⟩
      rcases h.cases with h | h
      · obtain ⟨m', hm', rfl⟩ := h.mem
        obtain ⟨m'', hm'', rfl⟩ := hoffers.mem
        have := hhead m'' hm''
        rw [List.mem_singleton.mp hm'] at hlt
        omega
      · exact hle n' p' hlt h

theorem zipIdx_sorted (modes : List (Option ModeInfo)) (k : Nat) :
    (modes.zipIdx k).Pairwise fun m m' => m.2 < m'.2 := by
  have hnums : ((modes.zipIdx k).map Prod.snd).Pairwise (· < ·) := by
    rw [List.zipIdx_map_snd]
    exact List.pairwise_lt_range'
  exact List.pairwise_map.mp hnums

/-- A mode has one pixel count. -/
theorem Offers.unique {p' : Nat} (h : Offers limits modes.zipIdx n p) (h' : Offers limits modes.zipIdx n p') :
    p = p' := by
  obtain ⟨info, hmem, -, rfl, -⟩ := h
  obtain ⟨info', hmem', -, rfl, -⟩ := h'
  rw [List.mem_zipIdx_iff_getElem?] at hmem hmem'
  have heq := hmem.symm.trans hmem'
  cases heq
  rfl

theorem Offers.lt_length (h : Offers limits modes.zipIdx n p) : n < modes.length := by
  obtain ⟨info, hmem, -⟩ := h
  have := List.snd_lt_of_mem_zipIdx hmem
  omega

/-! ## When the largest mode is selected -/

/-- The mode is the largest, it has more pixels than there are numbers for a mode, and no later
mode has more pixels than its number. -/
def Stands (limits : MaxRes) (modes : List (Option ModeInfo)) (n p : Nat) : Prop :=
  2 ^ 32 ≤ p ∧ Offers limits modes.zipIdx n p ∧ (∀ n' p', Offers limits modes.zipIdx n' p' → p' ≤ p) ∧
    ∀ n' p', n < n' → Offers limits modes.zipIdx n' p' → p' ≤ n

/-- A mode that stands is selected whatever is in `best_mode_num` before. -/
theorem Stands.modeLoop_eq (h : Stands limits modes n p) (hlen : modes.length < 2 ^ 32) {bestModeNum : Nat}
    (hb : bestModeNum < 2 ^ 32) : modeLoop limits bestModeNum modes = ⟨p, n⟩ := by
  obtain ⟨hp, ⟨info, hmem, husable, rfl, hpos⟩, -, hlater⟩ := h
  obtain ⟨xs, ys, hsplit⟩ := List.append_of_mem hmem
  have hsorted := zipIdx_sorted modes 0
  rw [hsplit] at hsorted
  obtain ⟨hxs, htail, -⟩ := List.pairwise_append.mp hsorted
  obtain ⟨hys, -⟩ := List.pairwise_cons.mp htail
  have hsub : ∀ {zs n' p'}, (∀ m ∈ zs, m ∈ modes.zipIdx) → Offers limits zs n' p' →
      Offers limits modes.zipIdx n' p' := by
    intro zs n' p' hzs hoffers
    obtain ⟨info', hmem', hrest⟩ := hoffers
    exact ⟨info', hzs _ hmem', hrest⟩
  -- the number of the best mode is a `UINT32` when the loop gets here
  have hbest : (xs.foldl (modeStep limits) ⟨0, bestModeNum⟩).bestModeNum < 2 ^ 32 := by
    rcases foldl_modeStep_cases limits hxs ⟨0, bestModeNum⟩ with ⟨hsame, -⟩ | ⟨n', p', heq, hoffers, -⟩
    · rw [hsame]
      exact hb
    · have := (hsub (fun m hm => by rw [hsplit]; exact List.mem_append_left _ hm) hoffers).lt_length
      rw [heq]
      exact Nat.lt_trans this hlen
  have htaken : modeStep limits (xs.foldl (modeStep limits) ⟨0, bestModeNum⟩) (some info, n) =
      ⟨info.pixelCount, n⟩ := by
    rcases modeStep_cases limits (xs.foldl (modeStep limits) ⟨0, bestModeNum⟩) (some info, n) with
      ⟨-, hle⟩ | ⟨p', hoffers, -, heq⟩
    · have := hle n info.pixelCount ⟨info, List.mem_singleton_self _, husable, rfl, hpos⟩
      omega
    · obtain ⟨info', hmem', -, rfl, -⟩ := hoffers
      cases List.mem_singleton.mp hmem'
      exact heq
  unfold modeLoop
  rw [hsplit, List.foldl_append, List.foldl_cons, htaken]
  refine foldl_modeStep_same fun n' p' hoffers => ?_
  obtain ⟨m', hm', rfl⟩ := hoffers.mem
  exact hlater m'.2 p' (hys m' hm')
    (hsub (fun m hm => by rw [hsplit]; exact List.mem_append_right _ (List.mem_cons_of_mem _ hm)) hoffers)

/-- **The mode loop** selects the largest mode if and only if no mode is usable or the largest one
stands. -/
theorem selectsLargest_iff (limits : MaxRes) (modes : List (Option ModeInfo)) (hlen : modes.length < 2 ^ 32) :
    SelectsLargest limits modes ↔
      (∀ n p, ¬Offers limits modes.zipIdx n p) ∨ ∃ n p, Stands limits modes n p := by
  have hsorted := zipIdx_sorted modes 0
  constructor
  · intro h
    -- the largest number, which no smaller pixel count exceeds
    have hlast := h (2 ^ 32 - 1) (by decide)
    unfold selectMode modeLoop at hlast
    rcases foldl_modeStep_cases limits hsorted ⟨0, 2 ^ 32 - 1⟩ with
      ⟨hsame, -⟩ | ⟨n, p, heq, hoffers, hlater⟩
    · rw [hsame] at hlast
      exact .inl hlast
    · rw [heq] at hlast
      have hpos : 0 < p := by
        obtain ⟨-, -, -, -, hpos⟩ := hoffers
        exact hpos
      dsimp only at hlast
      rw [if_neg (by omega)] at hlast
      obtain ⟨p', hoffers', hle⟩ := hlast
      obtain rfl := hoffers.unique hoffers'
      refine .inr ⟨n, p, ?_, hoffers, hle, hlater⟩
      by_contra hsmall
      have hsame : modes.zipIdx.foldl (modeStep limits) ⟨0, 2 ^ 32 - 1⟩ = ⟨0, 2 ^ 32 - 1⟩ := by
        refine foldl_modeStep_same fun n' p' h' => ?_
        have := hle n' p' h'
        dsimp only
        omega
      rw [hsame] at heq
      cases heq
      omega
  · intro h bestModeNum hb
    unfold selectMode
    rcases h with hnone | ⟨n, p, hstands⟩
    · have hsame : modeLoop limits bestModeNum modes = ⟨0, bestModeNum⟩ :=
        foldl_modeStep_same fun n p hoffers => absurd hoffers (hnone n p)
      rw [hsame]
      exact hnone
    · rw [hstands.modeLoop_eq hlen hb]
      have hp := hstands.1
      dsimp only
      rw [if_neg (by omega)]
      exact ⟨p, hstands.2.1, hstands.2.2.1⟩

/-- A mode of the format the kernel draws in. -/
def bgrxMode (hres vres : Nat) (hh : hres < 2 ^ 32) (hv : vres < 2 ^ 32) : ModeInfo :=
  ⟨.pixelBlueGreenRedReserved8BitPerColor, hres, vres, hh, hv⟩

/-- A mode of 2^32 pixels behind a smaller one stands, and is selected. -/
theorem selectsLargest_iff_last : SelectsLargest ⟨none, none⟩
    [some (bgrxMode 800 600 (by decide) (by decide)), some (bgrxMode 65536 65536 (by decide) (by decide))] := by
  refine (selectsLargest_iff ⟨none, none⟩ _ (by decide)).mpr (.inr ⟨1, 65536 * 65536, by decide, ?_, ?_, ?_⟩)
  · exact ⟨bgrxMode 65536 65536 (by decide) (by decide), by simp, ⟨rfl, rfl, rfl⟩, rfl, by decide⟩
  · rintro n p ⟨info, hmem, -, rfl, -⟩
    simp only [List.zipIdx_cons, List.zipIdx_nil, List.mem_cons, List.not_mem_nil, or_false, Prod.mk.injEq,
      Option.some.injEq] at hmem
    rcases hmem with ⟨rfl, -⟩ | ⟨rfl, -⟩
    · decide
    · decide
  · rintro n p hlt h
    have := h.lt_length
    simp only [List.length_cons, List.length_nil] at this
    omega

/-- A small mode behind a large one is selected. -/
theorem not_selectsLargest_small : ¬∀ (limits : MaxRes) (modes : List (Option ModeInfo)),
    modes.length < 2 ^ 32 → SelectsLargest limits modes := by
  intro h
  have hsel := h ⟨none, none⟩
    [some (bgrxMode 1920 1080 (by decide) (by decide)), some (bgrxMode 800 600 (by decide) (by decide))]
    (by decide) 0 (by decide)
  have hsecond : selectMode ⟨none, none⟩ 0
      [some (bgrxMode 1920 1080 (by decide) (by decide)), some (bgrxMode 800 600 (by decide) (by decide))] =
      some 1 := rfl
  rw [hsecond] at hsel
  obtain ⟨p, ⟨info, hmem, -, rfl, -⟩, hle⟩ := hsel
  have hfirst := hle 0 (1920 * 1080) ⟨bgrxMode 1920 1080 (by decide) (by decide), List.mem_cons_self,
    ⟨rfl, rfl, rfl⟩, rfl, Nat.mul_pos (by decide) (by decide)⟩
  have hcount : info.pixelCount = 800 * 600 := by
    rw [List.mem_zipIdx_iff_getElem?] at hmem
    cases hmem
    rfl
  omega

end KoalemOS.Boot
