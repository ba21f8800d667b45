import KoalemOS.Library.LinkedList
import Mathlib.Order.Basic

/-!
# Segments in address order

A list of segments, each with a start and a stop, from one address to another. With
`Placed (· ≤ ·)` the segments are disjoint and in order; with `Placed (· = ·)` there is no
gap between them either.
-/

namespace KoalemOS.Library

variable {β : Type}

/-- The segments `bs` lie between `lo` and `hi`, where `R` holds of each stop and the next
start. -/
def Placed (R : Nat → Nat → Prop) (start stop : β → Nat) : Nat → List β → Nat → Prop
  | lo, [], hi => R lo hi
  | lo, b :: bs, hi => R lo (start b) ∧ Placed R start stop (stop b) bs hi

namespace Placed

variable {R R' : Nat → Nat → Prop} {start stop stop' : β → Nat} {b c : β} {bs cs : List β}
  {lo lo' hi hi' : Nat}

@[simp] theorem nil_iff : Placed R start stop lo [] hi ↔ R lo hi := Iff.rfl

@[simp] theorem cons_iff : Placed R start stop lo (b :: bs) hi ↔
    R lo (start b) ∧ Placed R start stop (stop b) bs hi := Iff.rfl

/-- A list is placed when the parts before and behind one of its segments are. -/
@[simp] theorem append_cons_iff : Placed R start stop lo (bs ++ b :: cs) hi ↔
    Placed R start stop lo bs (start b) ∧ Placed R start stop (stop b) cs hi := by
  induction bs generalizing lo with
  | nil => rfl
  | cons d bs ih => simp [ih, and_assoc]

/-- A weaker order. -/
theorem imp (h : Placed R start stop lo bs hi) (hR : ∀ x y, R x y → R' x y) :
    Placed R' start stop lo bs hi := by
  induction bs generalizing lo with
  | nil => exact hR _ _ h
  | cons b bs ih => exact ⟨hR _ _ h.1, ih h.2⟩

/-! ## Disjoint segments -/

/-- The segments may end earlier. -/
theorem narrow (h : Placed (· ≤ ·) start stop lo bs hi) (hle : ∀ b ∈ bs, stop' b ≤ stop b) :
    Placed (· ≤ ·) start stop' lo bs hi := by
  induction bs generalizing lo with
  | nil => exact h
  | cons b bs ih =>
    obtain ⟨hb, hbs⟩ := h
    refine ⟨hb, ?_⟩
    have htail := ih hbs fun c hc => hle c (List.mem_cons_of_mem _ hc)
    have hfirst := hle b List.mem_cons_self
    cases bs with
    | nil => exact Nat.le_trans hfirst htail
    | cons c bs => exact ⟨Nat.le_trans hfirst htail.1, htail.2⟩

/-- The segments may begin anywhere up to the first of them. -/
theorem restart (h : Placed (· ≤ ·) start stop lo bs hi)
    (hlo : lo' ≤ LinkedList.headOr start hi bs) : Placed (· ≤ ·) start stop lo' bs hi := by
  cases bs with
  | nil => exact hlo
  | cons b bs => exact ⟨hlo, h.2⟩

theorem le_headOr (h : Placed (· ≤ ·) start stop lo bs hi) : lo ≤ LinkedList.headOr start hi bs := by
  cases bs with
  | nil => exact h
  | cons b bs => exact h.1

theorem upper (h : Placed (· ≤ ·) start stop lo bs hi) (hhi : hi ≤ hi') :
    Placed (· ≤ ·) start stop lo bs hi' := by
  induction bs generalizing lo with
  | nil => exact Nat.le_trans h hhi
  | cons b bs ih => exact ⟨h.1, ih h.2⟩

theorem le (hstop : ∀ b ∈ bs, start b ≤ stop b) (h : Placed (· ≤ ·) start stop lo bs hi) : lo ≤ hi := by
  induction bs generalizing lo with
  | nil => exact h
  | cons b bs ih =>
    have htail := ih (fun c hc => hstop c (List.mem_cons_of_mem _ hc)) h.2
    have hb := hstop b List.mem_cons_self
    have hfirst := h.1
    omega

/-- Each segment lies between the two ends. -/
theorem bounds (hstop : ∀ b ∈ bs, start b ≤ stop b) (h : Placed (· ≤ ·) start stop lo bs hi)
    (hb : b ∈ bs) :
    lo ≤ start b ∧ stop b ≤ hi := by
  obtain ⟨xs, ys, rfl⟩ := List.append_of_mem hb
  obtain ⟨hxs, hys⟩ := append_cons_iff.mp h
  exact ⟨le (fun c hc => hstop c (List.mem_append_left _ hc)) hxs,
    le (fun c hc => hstop c (List.mem_append_right _ (List.mem_cons_of_mem _ hc))) hys⟩

/-- Of two segments one lies before the other. -/
theorem pairwise (hstop : ∀ b ∈ bs, start b ≤ stop b) (h : Placed (· ≤ ·) start stop lo bs hi) :
    bs.Pairwise fun b c => stop b ≤ start c := by
  induction bs generalizing lo with
  | nil => exact List.Pairwise.nil
  | cons b bs ih =>
    have htail := fun c hc => hstop c (List.mem_cons_of_mem _ hc)
    exact List.pairwise_cons.mpr ⟨fun c hc => (bounds htail h.2 hc).1, ih htail h.2⟩

/-- Segments before one of the list end where it starts, those behind it start where it ends. -/
theorem around (hcs : ∀ c ∈ cs, start c ≤ stop c) (hbs : ∀ c ∈ bs, start c ≤ stop c)
    (h : Placed (· ≤ ·) start stop lo (cs ++ b :: bs) hi) :
    (∀ c ∈ cs, stop c ≤ start b) ∧ ∀ c ∈ bs, stop b ≤ start c := by
  obtain ⟨hl, hr⟩ := append_cons_iff.mp h
  exact ⟨fun c hc => (bounds hcs hl hc).2, fun c hc => (bounds hbs hr hc).1⟩

end Placed

end KoalemOS.Library
