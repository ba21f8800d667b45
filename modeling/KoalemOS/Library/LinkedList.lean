import Mathlib.Data.List.Basic
import Mathlib.Tactic.Common

/-!
# Doubly linked lists of nodes at addresses

A store `H` holds a node at every address: a value and the addresses of the nodes before and
behind it. `Chain H last bs next` says that the nodes at the addresses of `bs` are linked in
this order, between a node at `last` and one at `next`.

- `chain_append`: a list is two lists that end where they meet
- `Chain.congr`, `Chain.relinkLast`, `Chain.relinkNext`: what a store to a node leaves
- `Chain.unique`: a store holds at most one list from an address on
-/

namespace KoalemOS.Library

/-- A node of a doubly linked list. -/
@[ext] structure Node (α : Type) where
  val : α
  last : Nat
  next : Nat

namespace Node

variable {α : Type}

def withVal (n : Node α) (v : α) : Node α := ⟨v, n.last, n.next⟩

def withLast (n : Node α) (x : Nat) : Node α := ⟨n.val, x, n.next⟩

def withNext (n : Node α) (x : Nat) : Node α := ⟨n.val, n.last, x⟩

@[simp] theorem withVal_mk (v w : α) (l n : Nat) : withVal ⟨v, l, n⟩ w = ⟨w, l, n⟩ := rfl

@[simp] theorem withLast_mk (v : α) (l n x : Nat) : withLast ⟨v, l, n⟩ x = ⟨v, x, n⟩ := rfl

@[simp] theorem withNext_mk (v : α) (l n x : Nat) : withNext ⟨v, l, n⟩ x = ⟨v, l, x⟩ := rfl

end Node

namespace LinkedList

variable {α β : Type} (addr : β → Nat) (val : β → α)

/-- The address of the first of `bs`, or `next` where there is none. -/
def headOr (next : Nat) : List β → Nat
  | [] => next
  | b :: _ => addr b

/-- The address of the last of `bs`, or `last` where there is none. -/
def lastOr (last : Nat) : List β → Nat
  | [] => last
  | b :: bs => lastOr (addr b) bs

/-- The nodes of `bs` are linked in this order, between `last` and `next`. -/
def Chain (H : Nat → Node α) : Nat → List β → Nat → Prop
  | _, [], _ => True
  | last, b :: bs, next =>
    H (addr b) = ⟨val b, last, headOr addr next bs⟩ ∧ Chain H (addr b) bs next

variable {addr val} {H H' : Nat → Node α} {b c : β} {bs cs : List β} {last next : Nat}

@[simp] theorem headOr_nil : headOr addr next [] = next := rfl

@[simp] theorem headOr_cons : headOr addr next (b :: bs) = addr b := rfl

@[simp] theorem lastOr_nil : lastOr addr last [] = last := rfl

@[simp] theorem lastOr_cons : lastOr addr last (b :: bs) = lastOr addr (addr b) bs := rfl

@[simp] theorem chain_nil : Chain addr val H last [] next := trivial

@[simp] theorem chain_cons : Chain addr val H last (b :: bs) next ↔
    H (addr b) = ⟨val b, last, headOr addr next bs⟩ ∧ Chain addr val H (addr b) bs next := Iff.rfl

@[simp] theorem headOr_append : headOr addr next (bs ++ cs) = headOr addr (headOr addr next cs) bs := by
  cases bs <;> rfl

@[simp] theorem lastOr_append : lastOr addr last (bs ++ cs) = lastOr addr (lastOr addr last bs) cs := by
  induction bs generalizing last with
  | nil => rfl
  | cons b bs ih => exact ih

theorem headOr_mem (h : bs ≠ []) : ∃ b ∈ bs, headOr addr next bs = addr b := by
  cases bs with
  | nil => exact absurd rfl h
  | cons b bs => exact ⟨b, List.mem_cons_self, rfl⟩

/-- A list is two lists that end where they meet. -/
theorem chain_append : Chain addr val H last (bs ++ cs) next ↔
    Chain addr val H last bs (headOr addr next cs) ∧
      Chain addr val H (lastOr addr last bs) cs next := by
  induction bs generalizing last with
  | nil => simp
  | cons b bs ih => simp [ih, and_assoc]

/-- A store to other nodes leaves a list what it is. -/
theorem Chain.congr (h : Chain addr val H last bs next) (heq : ∀ b ∈ bs, H' (addr b) = H (addr b)) :
    Chain addr val H' last bs next := by
  induction bs generalizing last with
  | nil => trivial
  | cons b bs ih =>
    refine ⟨(heq b List.mem_cons_self).trans h.1, ih h.2 fun c hc => ?_⟩
    exact heq c (List.mem_cons_of_mem _ hc)

/-- The first node gets another one before it. -/
theorem Chain.relinkLast {last' : Nat} (h : Chain addr val H last bs next)
    (hhead : ∀ b cs, bs = b :: cs → H' (addr b) = (H (addr b)).withLast last')
    (htail : ∀ b cs, bs = b :: cs → ∀ c ∈ cs, H' (addr c) = H (addr c)) :
    Chain addr val H' last' bs next := by
  cases bs with
  | nil => trivial
  | cons b bs =>
    obtain ⟨hb, hbs⟩ := h
    refine ⟨?_, hbs.congr (htail b bs rfl)⟩
    rw [hhead b bs rfl, hb, Node.withLast_mk]

/-- The last node gets another one behind it. -/
theorem Chain.relinkNext {next' : Nat} (h : Chain addr val H last (bs ++ [b]) next)
    (hb : H' (addr b) = (H (addr b)).withNext next')
    (hbs : ∀ c ∈ bs, H' (addr c) = H (addr c)) : Chain addr val H' last (bs ++ [b]) next' := by
  rw [chain_append] at h ⊢
  obtain ⟨hinit, hlast, -⟩ := h
  refine ⟨hinit.congr hbs, ?_, trivial⟩
  rw [hb, hlast, Node.withNext_mk]
  rfl

/-- The nodes of a list are what the list says. -/
theorem Chain.node (h : Chain addr val H last (bs ++ b :: cs) next) :
    H (addr b) = ⟨val b, lastOr addr last bs, headOr addr next cs⟩ :=
  (chain_append.mp h).2.1

/-- A store holds at most one list that begins at an address and ends at address 0. -/
theorem Chain.unique {cs : List β} (hinj : ∀ b c : β, addr b = addr c → val b = val c → b = c)
    (hb : Chain addr val H last bs 0) (hc : Chain addr val H last cs 0)
    (hbpos : ∀ b ∈ bs, addr b ≠ 0) (hcpos : ∀ c ∈ cs, addr c ≠ 0)
    (hhead : headOr addr 0 bs = headOr addr 0 cs) : bs = cs := by
  induction bs generalizing last cs with
  | nil =>
    cases cs with
    | nil => rfl
    | cons c cs => exact absurd hhead.symm (hcpos c List.mem_cons_self)
  | cons b bs ih =>
    cases cs with
    | nil => exact absurd hhead (hbpos b List.mem_cons_self)
    | cons c cs =>
      obtain ⟨hb, hbs⟩ := hb
      obtain ⟨hc, hcs⟩ := hc
      simp only [headOr_cons] at hhead
      rw [← hhead, hb] at hc
      have hnode := (Node.mk.injEq ..).mp hc
      rw [← hhead] at hcs
      rw [hinj b c hhead hnode.1, ih hbs hcs (fun x hx => hbpos x (List.mem_cons_of_mem _ hx))
        (fun x hx => hcpos x (List.mem_cons_of_mem _ hx)) hnode.2.2]

end LinkedList

end KoalemOS.Library
