/-
The peers that a chunk of catchup still has to ask (`Peers_pool` of
`ledger_catchup/normal_catchup.ml`).

The pools of all chunks share the busy peers, so these are an argument here.
`find_available` compares how many peers it has tried with the queue's length
before it takes one, so it calls an empty queue all busy; an empty pool is
then never seen to be empty (`dequeue_right_iff`).
-/
import Mathlib

namespace Mina.LedgerCatchup

variable {P : Type} [DecidableEq P]

structure PeersPool (P : Type) where
  preferred : List P
  normal : List P

inductive Found (P : Type) where
  | empty
  | allBusy
  | available (x : P)
deriving DecidableEq

/-- The peer that is taken. -/
def Found.taken : Found P → List P
  | .available x => [x]
  | _ => []

namespace PeersPool

def create (preferred peers : List P) : PeersPool P := { preferred, normal := peers }

/-- `go` of `find_available`, with the number of peers still to try, and the
queue that is left. -/
def go (busy : Finset P) : Nat → List P → Found P × List P
  | 0, q => (.allBusy, q)
  | _ + 1, [] => (.empty, [])
  | n + 1, x :: q => if x ∈ busy then go busy n (q ++ [x]) else (.available x, q)

def findAvailable (busy : Finset P) (q : List P) : Found P × List P := go busy q.length q

def dequeue (busy : Finset P) (pool : PeersPool P) : Found P × PeersPool P :=
  match findAvailable busy pool.preferred with
  | (.available x, preferred) => (.available x, { pool with preferred })
  | (.empty, preferred) =>
    match findAvailable busy pool.normal with
    | (found, normal) => (found, { preferred, normal })
  | (.allBusy, preferred) =>
    match findAvailable busy pool.normal with
    | (.available x, normal) => (.available x, { preferred, normal })
    | (_, normal) => (.allBusy, { preferred, normal })

def peers (pool : PeersPool P) : List P := pool.preferred ++ pool.normal

/-! ## Looking for a peer -/

theorem go_busy {busy : Finset P} : ∀ (l r : List P), (∀ x ∈ l, x ∈ busy) →
    go busy l.length (l ++ r) = (.allBusy, r ++ l)
  | [], r, _ => by rw [List.length_nil, List.nil_append, List.append_nil, go]
  | x :: l, r, h => by
    have hx := h x List.mem_cons_self
    rw [List.length_cons, List.cons_append, go, if_pos hx, List.append_assoc,
      go_busy l (r ++ [x]) fun y hy => h y (List.mem_cons_of_mem _ hy), List.append_assoc, List.singleton_append]

theorem go_available {busy : Finset P} {x : P} {l : List P} (hx : x ∉ busy) : ∀ (before r : List P),
    (∀ y ∈ before, y ∈ busy) →
      go busy (before ++ x :: l).length (before ++ x :: l ++ r) = (.available x, l ++ r ++ before)
  | [], r, _ => by rw [List.nil_append, List.length_cons, List.cons_append, go, if_neg hx, List.append_nil]
  | y :: before, r, h => by
    have hy := h y List.mem_cons_self
    have hrotate : before ++ x :: l ++ r ++ [y] = before ++ x :: l ++ (r ++ [y]) := List.append_assoc _ _ _
    rw [List.cons_append, List.length_cons, List.cons_append, go, if_pos hy, hrotate,
      go_available hx before (r ++ [y]) fun z hz => h z (List.mem_cons_of_mem _ hz), ← List.append_assoc,
      List.append_assoc (l ++ r), List.singleton_append]

/-- All of a queue is busy, and it stays as it is. -/
theorem findAvailable_busy {busy : Finset P} {q : List P} (h : ∀ x ∈ q, x ∈ busy) :
    findAvailable busy q = (.allBusy, q) := by
  have hgo := go_busy q [] h
  rwa [List.append_nil, List.nil_append] at hgo

/-- The first peer that is not busy is taken, and those before it go to the
end. -/
theorem findAvailable_available {busy : Finset P} {x : P} {before after : List P}
    (h : ∀ y ∈ before, y ∈ busy) (hx : x ∉ busy) :
    findAvailable busy (before ++ x :: after) = (.available x, after ++ before) := by
  have hgo := go_available (l := after) hx before [] h
  rwa [List.append_nil, List.append_nil] at hgo

/-- Before the first that is not busy all are. -/
theorem exists_first {busy : Finset P} : ∀ {q : List P}, (¬ ∀ x ∈ q, x ∈ busy) →
    ∃ before x after, q = before ++ x :: after ∧ (∀ y ∈ before, y ∈ busy) ∧ x ∉ busy
  | [], h => absurd (fun x hx => (by cases hx)) h
  | y :: q, h => by
    by_cases hy : y ∈ busy
    · have hq : ¬ ∀ x ∈ q, x ∈ busy := fun hq => h (List.forall_mem_cons.2 ⟨hy, hq⟩)
      obtain ⟨before, x, after, rfl, hbefore, hx⟩ := exists_first hq
      exact ⟨y :: before, x, after, rfl, List.forall_mem_cons.2 ⟨hy, hbefore⟩, hx⟩
    · exact ⟨[], y, q, rfl, fun z hz => (by cases hz), hy⟩

/-! ## Dequeueing -/

theorem dequeue_busy {busy : Finset P} {pool : PeersPool P} (h : ∀ x ∈ pool.peers, x ∈ busy) :
    dequeue busy pool = (.allBusy, pool) := by
  have hpreferred := findAvailable_busy fun x hx => h x (List.mem_append_left _ hx)
  have hnormal := findAvailable_busy fun x hx => h x (List.mem_append_right _ hx)
  rw [dequeue, hpreferred]
  dsimp only
  rw [hnormal]

/-- The first peer that is not busy, the preferred ones before the others. -/
theorem dequeue_available {busy : Finset P} {pool : PeersPool P} (h : ¬ ∀ x ∈ pool.peers, x ∈ busy) :
    ∃ x left, dequeue busy pool = (.available x, left) ∧ pool.peers.find? (· ∉ busy) = some x ∧
      pool.peers.Perm (x :: left.peers) := by
  have hfind : ∀ {before after : List P} {x : P}, (∀ y ∈ before, y ∈ busy) → x ∉ busy →
      (before ++ x :: after).find? (· ∉ busy) = some x := by
    intro before after x hbefore hx
    refine List.find?_eq_some_iff_append.2 ⟨by simpa using hx, before, after, rfl, fun y hy => ?_⟩
    simpa using hbefore y hy
  by_cases hpreferred : ∀ x ∈ pool.preferred, x ∈ busy
  · have hnormal : ¬ ∀ x ∈ pool.normal, x ∈ busy := fun hnormal => h fun x hx =>
      (List.mem_append.1 hx).elim (hpreferred x) (hnormal x)
    obtain ⟨before, x, after, hq, hbefore, hx⟩ := exists_first hnormal
    refine ⟨x, ⟨pool.preferred, after ++ before⟩, ?_, ?_, ?_⟩
    · rw [dequeue, findAvailable_busy hpreferred]
      dsimp only
      rw [hq, findAvailable_available hbefore hx]
    · rw [peers, hq, ← List.append_assoc]
      exact hfind (fun y hy => (List.mem_append.1 hy).elim (hpreferred y) (hbefore y)) hx
    · rw [peers, hq, peers, List.perm_iff_count]
      intro a
      simp only [List.count_append, List.count_cons]
      omega
  · obtain ⟨before, x, after, hq, hbefore, hx⟩ := exists_first hpreferred
    refine ⟨x, ⟨after ++ before, pool.normal⟩, ?_, ?_, ?_⟩
    · rw [dequeue, hq, findAvailable_available hbefore hx]
    · rw [peers, hq, List.append_assoc, List.cons_append]
      exact hfind hbefore hx
    · rw [peers, hq, peers, List.perm_iff_count]
      intro a
      simp only [List.count_append, List.count_cons]
      omega

/-- What `dequeue` is to do with a pool. -/
structure DequeueRight (busy : Finset P) (pool : PeersPool P) : Prop where
  available : ∀ x, (dequeue busy pool).1 = .available x ↔ pool.peers.find? (· ∉ busy) = some x
  empty : (dequeue busy pool).1 = .empty ↔ pool.peers = []
  allBusy : (dequeue busy pool).1 = .allBusy ↔ pool.peers ≠ [] ∧ ∀ x ∈ pool.peers, x ∈ busy
  kept : pool.peers.Perm (Found.taken (dequeue busy pool).1 ++ (dequeue busy pool).2.peers)

/-- **`dequeue` is right of every pool but the empty one.** -/
theorem dequeue_right_iff (busy : Finset P) (pool : PeersPool P) : DequeueRight busy pool ↔ pool.peers ≠ [] := by
  constructor
  · intro hright hempty
    have hbusy : ∀ x ∈ pool.peers, x ∈ busy := fun x hx => by
      rw [hempty] at hx
      cases hx
    have hfound := hright.empty.2 hempty
    rw [dequeue_busy hbusy] at hfound
    cases hfound
  · intro hsome
    by_cases hbusy : ∀ x ∈ pool.peers, x ∈ busy
    · have hnone : pool.peers.find? (· ∉ busy) = none := List.find?_eq_none.2 fun x hx => by simpa using hbusy x hx
      have heq := dequeue_busy hbusy
      constructor
      · intro x
        rw [heq, hnone]
        exact iff_of_false (fun h => by cases h) fun h => by cases h
      · rw [heq]
        exact iff_of_false (fun h => by cases h) hsome
      · rw [heq]
        exact iff_of_true rfl ⟨hsome, hbusy⟩
      · rw [heq]
        exact .refl _
    · obtain ⟨x, left, heq, hfind, hperm⟩ := dequeue_available hbusy
      constructor
      · intro y
        rw [heq, hfind, Found.available.injEq, Option.some.injEq]
      · rw [heq]
        exact iff_of_false (fun h => by cases h) hsome
      · rw [heq]
        exact iff_of_false (fun h => by cases h) fun h => hbusy h.2
      · rw [heq]
        exact hperm

end PeersPool

end Mina.LedgerCatchup
