import Mathlib.Data.Finset.Card
import Mathlib.Data.Fintype.Card
import Mathlib.Logic.Relation

/-!
# Slots handed out under a lock

Any number of parties take a lock, read a counter, write back one more, and release the lock.
What a party reads is its slot.

- `HandOutStep`: one access of one party
- `HandOutInv`: one party is inside, and the slots are the numbers below the number of parties
  that have one
- `HandOutInv.slot_lt`, `HandOutInv.slot_inj`: what the parties rely on
-/

namespace KoalemOS.Library

/-! ## The protocol -/

/-- How far a party is; `k` is the slot it has read. -/
inductive Turn where
  | before
  | entered
  | read (k : Nat)
  | stored (k : Nat)
  | after (k : Nat)
  deriving DecidableEq

namespace Turn

/-- The party has the lock. -/
def inside : Turn → Bool
  | entered | read _ | stored _ => true
  | before | after _ => false

/-- The slot of a party that has one. -/
def slot : Turn → Option Nat
  | before | entered => none
  | read k | stored k | after k => some k

end Turn

/-- The lock, the counter and the parties. -/
structure HandOut (P : Type) where
  lock : Bool
  next : Nat
  turn : P → Turn

/-- Nobody has begun. -/
def HandOut.start (P : Type) : HandOut P := ⟨false, 0, fun _ => .before⟩

section System

variable {P : Type} [DecidableEq P]

/-- Party `p` goes on. -/
def HandOut.goto (a : HandOut P) (p : P) (t : Turn) : HandOut P := { a with turn := Function.update a.turn p t }

/-- One access of one party. -/
inductive HandOutStep : HandOut P → HandOut P → Prop where
  | enter {a : HandOut P} {p : P} : a.turn p = .before → a.lock = false →
      HandOutStep a { a.goto p .entered with lock := true }
  | read {a : HandOut P} {p : P} : a.turn p = .entered → HandOutStep a (a.goto p (.read a.next))
  | store {a : HandOut P} {p : P} {k : Nat} : a.turn p = .read k →
      HandOutStep a { a.goto p (.stored k) with next := k + 1 }
  | leave {a : HandOut P} {p : P} {k : Nat} : a.turn p = .stored k →
      HandOutStep a { a.goto p (.after k) with lock := false }

@[simp] theorem goto_turn_self (a : HandOut P) (p : P) (t : Turn) : (a.goto p t).turn p = t :=
  Function.update_self ..

theorem goto_turn_ne (a : HandOut P) {p q : P} (t : Turn) (h : q ≠ p) : (a.goto p t).turn q = a.turn q :=
  Function.update_of_ne h ..

end System

/-! ## The invariant -/

variable {P : Type} [Fintype P] {a a' : HandOut P} {p q : P} {k : Nat} {t : Turn}

/-- The parties that have a slot. -/
def HandOut.served (a : HandOut P) : Finset P := Finset.univ.filter fun p => (a.turn p).slot.isSome

/-- One party is inside at most, and none exactly while the lock is free; the slots are different numbers
below the number of parties that have one; and this number is what the counter holds, or will
hold once the party inside has stored it. -/
structure HandOutInv (a : HandOut P) : Prop where
  exclusive : ∀ p q, (a.turn p).inside = true → (a.turn q).inside = true → p = q
  free : a.lock = false ↔ ∀ p, (a.turn p).inside = false
  slot_lt : ∀ p k, (a.turn p).slot = some k → k < a.served.card
  slot_inj : ∀ p q k, (a.turn p).slot = some k → (a.turn q).slot = some k → p = q
  reading : ∀ p k, a.turn p = .read k → k + 1 = a.served.card
  counted : (∀ p k, a.turn p ≠ .read k) → a.next = a.served.card

theorem handOutInv_start : HandOutInv (HandOut.start P) where
  exclusive _ _ h := by simp [HandOut.start, Turn.inside] at h
  free := iff_of_true rfl fun _ => rfl
  slot_lt _ _ h := by simp [HandOut.start, Turn.slot] at h
  slot_inj _ _ _ h := by simp [HandOut.start, Turn.slot] at h
  reading _ _ h := by simp [HandOut.start] at h
  counted _ := by simp [HandOut.start, HandOut.served, Turn.slot]

/-- There are no more slots than parties. -/
theorem HandOut.served_card_le (a : HandOut P) : a.served.card ≤ Fintype.card P := Finset.card_le_univ _

/-- The number of a slot is below the number of parties. -/
theorem HandOutInv.slot_lt_card (h : HandOutInv a) (hp : (a.turn p).slot = some k) : k < Fintype.card P :=
  (h.slot_lt p k hp).trans_le a.served_card_le

/-- A party inside keeps the others out. -/
theorem HandOutInv.others (h : HandOutInv a) (hp : (a.turn p).inside = true) (hq : q ≠ p) :
    (a.turn q).inside = false := by
  by_contra hin
  exact hq (h.exclusive q p (eq_true_of_ne_false hin) hp)

/-- While one party is inside, no other one has read and not stored. -/
theorem HandOutInv.no_read (h : HandOutInv a) (hp : (a.turn p).inside = true) (hq : q ≠ p) :
    ∀ k, a.turn q ≠ .read k := by
  intro k hk
  have := h.others hp hq
  rw [hk] at this
  cases this

/-- The counter while nobody is between reading and storing. -/
theorem HandOutInv.next_eq (h : HandOutInv a) (hp : (a.turn p).inside = true) (hread : ∀ k, a.turn p ≠ .read k) :
    a.next = a.served.card := by
  refine h.counted fun q k => ?_
  by_cases hq : q = p
  · exact hq ▸ hread k
  · exact h.no_read hp hq k

variable [DecidableEq P]

/-- A party that keeps its slot, or is still without one. -/
theorem HandOut.served_goto (h : t.slot.isSome = (a.turn p).slot.isSome) : (a.goto p t).served = a.served := by
  ext q
  simp only [HandOut.served, Finset.mem_filter, Finset.mem_univ, true_and]
  by_cases hq : q = p
  · subst hq
    rw [goto_turn_self, h]
  · rw [goto_turn_ne a t hq]

/-- A party that gets its slot. -/
theorem HandOut.served_read (hp : (a.turn p).slot = none) :
    (a.goto p (.read k)).served = insert p a.served ∧ p ∉ a.served := by
  constructor
  · ext q
    simp only [HandOut.served, Finset.mem_filter, Finset.mem_univ, true_and, Finset.mem_insert]
    by_cases hq : q = p
    · subst hq
      simp [Turn.slot]
    · rw [goto_turn_ne a _ hq]
      simp [hq]
  · simp [HandOut.served, hp]

/-- A party moves, with the slot it has. -/
theorem HandOutInv.move (h : HandOutInv a) (hin : (a.turn p).inside = true ∨ a.lock = false)
    (hslot : t.slot = (a.turn p).slot) {b : Bool} {n : Nat} (hfree : b = false ↔ t.inside = false)
    (hread : ∀ k, t ≠ .read k) (hnext : n = a.served.card) :
    HandOutInv { a.goto p t with lock := b, next := n } := by
  have hserved : HandOut.served { a.goto p t with lock := b, next := n } = a.served :=
    HandOut.served_goto (by rw [hslot])
  have hout : ∀ q, q ≠ p → (a.turn q).inside = false := fun q hq =>
    hin.elim (fun hp => h.others hp hq) fun hlock => h.free.mp hlock q
  have hslots : ∀ q, ((a.goto p t).turn q).slot = (a.turn q).slot := by
    intro q
    by_cases hq : q = p
    · rw [hq, goto_turn_self, hslot]
    · rw [goto_turn_ne a t hq]
  have hinside : ∀ q, ((a.goto p t).turn q).inside = true → q = p := by
    intro q hq
    by_contra hne
    rw [goto_turn_ne a t hne, hout q hne] at hq
    cases hq
  refine ⟨fun q r hq hr => (hinside q hq).trans (hinside r hr).symm, ⟨fun hb q => ?_, fun hout => ?_⟩,
    fun q k hq => ?_, fun q r k hq hr => ?_, fun q k hq => ?_, fun _ => ?_⟩
  · by_cases hq : q = p
    · subst hq
      exact (congrArg Turn.inside (goto_turn_self a q t)).trans (hfree.mp hb)
    · exact (congrArg Turn.inside (goto_turn_ne a t hq)).trans (hout q hq)
  · exact hfree.mpr ((congrArg Turn.inside (goto_turn_self a p t)).symm.trans (hout p))
  · rw [hserved]
    exact h.slot_lt q k ((hslots q).symm.trans hq)
  · exact h.slot_inj q r k ((hslots q).symm.trans hq) ((hslots r).symm.trans hr)
  · have hq' : (a.goto p t).turn q = .read k := hq
    obtain rfl := hinside q (by rw [hq']; rfl)
    rw [goto_turn_self] at hq'
    exact absurd hq' (hread k)
  · rw [hserved]
    exact hnext

/-- The party inside reads the counter. -/
theorem HandOutInv.read (h : HandOutInv a) (hp : a.turn p = .entered) : HandOutInv (a.goto p (.read a.next)) := by
  have hin : (a.turn p).inside = true := by rw [hp]; rfl
  have hnext : a.next = a.served.card := h.next_eq hin fun k hk => by rw [hp] at hk; cases hk
  obtain ⟨hserved, hnew⟩ := HandOut.served_read (a := a) (p := p) (k := a.next) (by rw [hp]; rfl)
  have hcard : (a.goto p (.read a.next)).served.card = a.next + 1 := by
    rw [hserved, Finset.card_insert_of_notMem hnew, hnext]
  -- the slots so far are below the counter
  have hold : ∀ q k, q ≠ p → ((a.goto p (.read a.next)).turn q).slot = some k → k < a.next := by
    intro q k hq hk
    rw [goto_turn_ne a _ hq] at hk
    rw [hnext]
    exact h.slot_lt q k hk
  have hmine : ∀ k, ((a.goto p (.read a.next)).turn p).slot = some k → k = a.next := by
    intro k hk
    rw [goto_turn_self] at hk
    exact (Option.some.inj hk).symm
  refine ⟨fun q r hq hr => ?_, ⟨fun hlock => ?_, fun hout => ?_⟩, fun q k hq => ?_, fun q r k hq hr => ?_,
    fun q k hq => ?_, fun hno => ?_⟩
  · have honly : ∀ r, ((a.goto p (.read a.next)).turn r).inside = true → r = p := by
      intro r hr
      by_contra hne
      rw [goto_turn_ne a _ hne, h.others hin hne] at hr
      cases hr
    exact (honly q hq).trans (honly r hr).symm
  · have := h.free.mp hlock p
    rw [hin] at this
    cases this
  · have := hout p
    rw [goto_turn_self] at this
    cases this
  · rw [hcard]
    by_cases hqp : q = p
    · subst hqp
      exact (hmine k hq).trans_lt (Nat.lt_succ_self _)
    · exact (hold q k hqp hq).trans (Nat.lt_succ_self _)
  · by_cases hqp : q = p
    · by_cases hrp : r = p
      · rw [hqp, hrp]
      · subst hqp
        have := hold r k hrp hr
        rw [hmine k hq] at this
        omega
    · by_cases hrp : r = p
      · subst hrp
        have := hold q k hqp hq
        rw [hmine k hr] at this
        omega
      · rw [goto_turn_ne a _ hqp] at hq
        rw [goto_turn_ne a _ hrp] at hr
        exact h.slot_inj q r k hq hr
  · by_cases hqp : q = p
    · subst hqp
      rw [goto_turn_self] at hq
      cases hq
      exact hcard.symm
    · rw [goto_turn_ne a _ hqp] at hq
      exact absurd hq (h.no_read hin hqp k)
  · exact absurd (goto_turn_self a p (.read a.next)) (hno p a.next)

/-- **Every step keeps the invariant.** -/
theorem HandOutInv.step (h : HandOutInv a) (hs : HandOutStep a a') : HandOutInv a' := by
  cases hs with
  | @enter p hp hlock =>
    have hnone : ∀ q k, a.turn q ≠ .read k := fun q k hk => by
      have := h.free.mp hlock q
      rw [hk] at this
      cases this
    exact h.move (.inr hlock) (by rw [hp]; rfl) (iff_of_false nofun nofun) (fun _ => nofun) (h.counted hnone)
  | read hp => exact h.read hp
  | @store p k hp =>
    have hin : (a.turn p).inside = true := by rw [hp]; rfl
    refine h.move (.inl hin) (by rw [hp]; rfl) (iff_of_false (fun hlock => ?_) nofun) (fun _ => nofun)
      (h.reading p k hp)
    have := h.free.mp hlock p
    rw [hin] at this
    cases this
  | @leave p k hp =>
    have hin : (a.turn p).inside = true := by rw [hp]; rfl
    exact h.move (.inl hin) (by rw [hp]; rfl) (iff_of_true rfl rfl) (fun _ => nofun)
      (h.next_eq hin fun k hk => by rw [hp] at hk; cases hk)

/-! ## Parts of a buffer -/

/-- A slot's part lies in the buffer. -/
theorem slot_inside {base width n : Nat} (hk : k < n) :
    base ≤ base + width * k ∧ base + width * k + width ≤ base + width * n := by
  have := Nat.mul_le_mul_left width (Nat.succ_le_of_lt hk)
  rw [Nat.mul_succ] at this
  omega

/-- Different slots have parts that are apart. -/
theorem slot_apart {base width j : Nat} (hne : j ≠ k) :
    base + width * j + width ≤ base + width * k ∨ base + width * k + width ≤ base + width * j := by
  rcases Nat.lt_or_gt_of_ne hne with hlt | hlt
  · exact .inl (slot_inside hlt).2
  · exact .inr (slot_inside hlt).2

end KoalemOS.Library
