import KoalemOS.Mmap.FreePages

/-!
# Runs of memory map operations

A run is any sequence of `mmap_get_pages`, `mmap_add_range` and
`mmap_add_range_merge` calls whose added ranges are well formed and free of
pages the map already has. The step lemma `MmapCall.run_spec` says what one call
does to the free pages; the run lemma `mmap_run_accounts` adds the calls up: the
pages handed out and the pages still free are the pages there were at the start
and the pages added since, so none is handed out twice and none is lost.
-/

namespace KoalemOS.Mmap

/-! ## Calls -/

/-- A call of one of the operations on a map. -/
inductive MmapCall where
  | getPages (pages : Nat)
  | addRange (baseAddr pages : Nat)
  | addRangeMerge (baseAddr pages : Nat)

/-- The result of a call, as the C value returned, and the map after it. -/
def MmapCall.run (m : MemoryMap) : MmapCall → Nat × MemoryMap
  | .getPages n => mmapGetPages m n
  | .addRange b n => ((mmapAddRange m b n).1.toNat, (mmapAddRange m b n).2)
  | .addRangeMerge b n => ((mmapAddRangeMerge m b n).1.toNat, (mmapAddRangeMerge m b n).2)

/-- What a caller owes. -/
def MmapCall.Valid (m : MemoryMap) : MmapCall → Prop
  | .getPages n => 1 ≤ n
  | .addRange b n => m.CanAdd ⟨b, n⟩
  | .addRangeMerge b n => m.CanAdd ⟨b, n⟩

/-- The pages a call hands out, given its result. -/
def MmapCall.handed (res : Nat) : MmapCall → List Nat
  | .getPages n => if res = 0 then [] else MemoryRange.pageList ⟨res, n⟩
  | _ => []

/-- The pages a call puts in, given its result. -/
def MmapCall.added (res : Nat) : MmapCall → List Nat
  | .getPages _ => []
  | .addRange b n => if res = 0 then [] else MemoryRange.pageList ⟨b, n⟩
  | .addRangeMerge b n => if res = 0 then [] else MemoryRange.pageList ⟨b, n⟩

/-- What a call guarantees about its result and the map it leaves: taking returns
0 exactly when no single range holds the request, a call that fails (returns 0)
changes nothing, and the free pages change by exactly the pages handed out or put in. -/
structure MmapCall.Post (c : MmapCall) (m : MemoryMap) (res : Nat) (m' : MemoryMap) : Prop where
  wf : m'.Wf
  fails : res = 0 → m' = m
  fails_iff : ∀ n, c = .getPages n → (res = 0 ↔ ∀ r ∈ m.ranges, r.pages < n)
  pages : (c.handed res ++ m'.freePages).Perm (m.freePages ++ c.added res)

/-- The page balance of an adding call, from its two outcomes. -/
private theorem add_balance {m m' : MemoryMap} {r : Bool} {l : List Nat}
    (hok : r = true → m'.freePages.Perm (l ++ m.freePages)) (hfail : r = false → m' = m) :
    m'.freePages.Perm (m.freePages ++ if r.toNat = 0 then [] else l) := by
  cases r with
  | true => exact (hok rfl).trans (by simpa using List.perm_append_comm)
  | false => simp [hfail rfl]

/-- One call. -/
theorem MmapCall.run_spec {m : MemoryMap} (hwf : m.Wf) (c : MmapCall) (hc : c.Valid m) :
    c.Post m (c.run m).1 (c.run m).2 := by
  cases c with
  | getPages n =>
    obtain ⟨hiff, hsame⟩ := mmapGetPages_zero hwf (n := n)
    refine ⟨mmapGetPages_wf hwf hc, hsame, fun k hk => ?_, ?_⟩
    · cases hk
      exact hiff
    · show (List.Perm ((if (mmapGetPages m n).1 = 0 then [] else _) ++ (mmapGetPages m n).2.freePages)
        (m.freePages ++ []))
      rw [List.append_nil]
      by_cases h0 : (mmapGetPages m n).1 = 0
      · rw [if_pos h0, hsame h0, List.nil_append]
      · rw [if_neg h0]
        exact (mmapGetPages_pages hwf hc h0).2.2.symm
  | addRange b n =>
    obtain ⟨hwf', hok, hfail⟩ := mmapAddRange_pages hwf hc
    refine ⟨hwf', fun h0 => hfail (by simpa [MmapCall.run] using h0), nofun, ?_⟩
    exact add_balance hok hfail
  | addRangeMerge b n =>
    obtain ⟨hwf', hok, hfail⟩ := mmapAddRangeMerge_pages hwf hc
    refine ⟨hwf', fun h0 => hfail (by simpa [MmapCall.run] using h0), nofun, ?_⟩
    exact add_balance hok hfail

/-! ## Runs -/

/-- The calls made so far, with their results, and the map they lead to. -/
inductive MmapRun (m₀ : MemoryMap) : List (MmapCall × Nat) → MemoryMap → Prop where
  | start : MmapRun m₀ [] m₀
  | call {tr : List (MmapCall × Nat)} {m : MemoryMap} (c : MmapCall) :
      MmapRun m₀ tr m → c.Valid m → MmapRun m₀ (tr ++ [(c, (c.run m).1)]) (c.run m).2

/-- All pages handed out in a run. -/
def handedOut (tr : List (MmapCall × Nat)) : List Nat := tr.flatMap fun x => x.1.handed x.2

/-- All pages put in during a run. -/
def putIn (tr : List (MmapCall × Nat)) : List Nat := tr.flatMap fun x => x.1.added x.2

/-- The invariant holds throughout a run, and the pages add up. -/
theorem mmap_run_accounts {m₀ m : MemoryMap} {tr : List (MmapCall × Nat)} (hwf : m₀.Wf)
    (h : MmapRun m₀ tr m) :
    m.Wf ∧ (handedOut tr ++ m.freePages).Perm (m₀.freePages ++ putIn tr) := by
  induction h with
  | start => exact ⟨hwf, by simp [handedOut, putIn]⟩
  | @call tr m c _ hc ih =>
    obtain ⟨hm, hperm⟩ := ih
    have hpost := c.run_spec hm hc
    refine ⟨hpost.wf, ?_⟩
    simp only [handedOut, putIn, List.flatMap_append, List.flatMap_cons, List.flatMap_nil,
      List.append_nil] at hperm ⊢
    rw [List.append_assoc]
    refine (List.Perm.append_left _ hpost.pages).trans ?_
    rw [← List.append_assoc, ← List.append_assoc]
    exact hperm.append_right _

/-- **Runs of the memory map.** From a map in representation, after any run of calls:
the invariant holds; no page is free twice; the next call, whichever it is, hands
out only pages that were free, exactly as many consecutive ones as asked for,
fails exactly when no range is long enough, and leaves the map alone when it
fails; and over the whole run the pages handed out together with the pages still
free are the initial pages together with the pages added, each as often. -/
theorem mmap_run_correct {m₀ m : MemoryMap} {tr : List (MmapCall × Nat)} (hwf : m₀.Wf)
    (h : MmapRun m₀ tr m) :
    m.Wf ∧ m.freePages.Nodup ∧
      (∀ c : MmapCall, c.Valid m → c.Post m (c.run m).1 (c.run m).2) ∧
      (∀ p, (handedOut tr).count p + m.freePages.count p =
        m₀.freePages.count p + (putIn tr).count p) := by
  obtain ⟨hm, hperm⟩ := mmap_run_accounts hwf h
  refine ⟨hm, hm.freePages_nodup, fun c hc => c.run_spec hm hc, fun p => ?_⟩
  have := hperm.count_eq p
  simpa only [List.count_append] using this

/-- A map with the single range of four pages at `0x1000`, and a buffer of two slots. -/
def fourPages : MemoryMap := ⟨fun _ => ⟨0x1000, 4⟩, 1, 2⟩

theorem fourPages_wf : fourPages.Wf := by
  have hr : fourPages.ranges = [⟨0x1000, 4⟩] := rfl
  refine ⟨?_, ?_, by decide, by decide⟩
  · rw [hr]
    intro r hr
    rw [List.mem_singleton.mp hr]
    exact ⟨by decide, by decide, by decide, by decide⟩
  · rw [hr]
    exact List.pairwise_singleton _ _

/-- Three pages are taken from the four, then one of them is given back. -/
theorem mmap_run_correct_fourPages :
    ∃ tr m, MmapRun fourPages tr m ∧ tr.length = 2 ∧ m.Wf ∧ m.freePages.Nodup := by
  have h₁ : MmapRun fourPages [(.getPages 3, 0x1000)] (mmapGetPages fourPages 3).2 :=
    MmapRun.start.call (.getPages 3) (show 1 ≤ 3 by decide)
  have hadd : (mmapGetPages fourPages 3).2.CanAdd ⟨0x3000, 1⟩ := by
    refine ⟨⟨by decide, by decide, by decide, by decide⟩, ?_⟩
    intro q hq
    have hr : (mmapGetPages fourPages 3).2.ranges = [⟨0x4000, 1⟩] := by decide
    rw [hr] at hq
    rw [List.mem_singleton.mp hq]
    exact .inr (by decide)
  have h₂ := h₁.call (.addRangeMerge 0x3000 1) hadd
  have hc := mmap_run_correct fourPages_wf h₂
  exact ⟨_, _, h₂, rfl, hc.1, hc.2.1⟩

end KoalemOS.Mmap
