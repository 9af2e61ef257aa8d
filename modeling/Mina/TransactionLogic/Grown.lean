/-
A ledger that has grown out of another by writes: the accounts that were
there are where they were, and the new ones are after them, in the order of
their creation. When the old accounts are as they were, removing the new
ones gives the other ledger back (`Grown.remove`); undoing a transaction
rests on this.
-/
import Mina.TransactionLogic.Transactions

namespace Mina.TransactionLogic

variable {F VK Hash : Type}

namespace Accounts

structure Grown (l₀ l : Accounts F VK) (new : List AccountId) : Prop where
  depth : l.depth = l₀.depth
  length : l.slots.length = l₀.slots.length + new.length
  /-- The slots that no lookup reaches. -/
  unreached : ∀ i, i < l₀.slots.length → (∀ x, l₀.locationOfAccount x ≠ some i) → l.slots[i]? = l₀.slots[i]?
  located : ∀ x, l₀.find x ≠ none → l.locationOfAccount x = l₀.locationOfAccount x
  created : ∀ i x, new[i]? = some x → l.locationOfAccount x = some (l₀.slots.length + i)
  known : ∀ x, l.find x ≠ none → l₀.find x ≠ none ∨ x ∈ new

namespace Grown

variable {l₀ l : Accounts F VK} {new : List AccountId} {a : Account F VK}

theorem refl (l : Accounts F VK) : Grown l l [] where
  depth := rfl
  length := rfl
  unreached _ _ _ := rfl
  located _ _ := rfl
  created i x h := by cases h
  known x h := .inl h

/-- A lookup reaches one of the accounts that were there, or a new one. -/
theorem location_cases (h : Grown l₀ l new) {x : AccountId} {i : Location} (hi : l.locationOfAccount x = some i) :
    l₀.locationOfAccount x = some i ∨ l₀.slots.length ≤ i := by
  have hx : l.find x ≠ none := by
    rw [ne_eq, find_eq_none, hi]
    exact Option.some_ne_none i
  rcases h.known x hx with hold | hnew
  · rw [h.located x hold] at hi
    exact .inl hi
  · obtain ⟨j, hj, rfl⟩ := List.mem_iff_getElem.1 hnew
    rw [h.created j _ (List.getElem?_eq_getElem hj), Option.some.injEq] at hi
    exact .inr (hi ▸ Nat.le_add_right _ _)

/-- An account that is there is written. -/
theorem put_found (h : Grown l₀ l new) (ha : l.find a.identifier ≠ none) : Grown l₀ (l.put a) new := by
  obtain ⟨b, hb⟩ := Option.ne_none_iff_exists'.1 ha
  obtain ⟨i, hi, -, -⟩ := location_of_find hb
  have hloc (x : AccountId) : (l.put a).locationOfAccount x = l.locationOfAccount x :=
    locationOfAccount_put a (.inr (Option.isSome_iff_ne_none.2 ha))
  constructor
  · rw [put_of_location hi]
    exact h.depth
  · rw [put_of_location hi, setAt, List.length_set, h.length]
  · intro j hj hunreached
    have hij : i ≠ j := by
      rintro rfl
      rcases h.location_cases hi with hold | hnew
      · exact hunreached _ hold
      · exact absurd hj (Nat.not_lt.2 hnew)
    rw [put_of_location hi, setAt, List.getElem?_set_ne hij, h.unreached j hj hunreached]
  · intro x hx
    rw [hloc, h.located x hx]
  · intro j x hx
    rw [hloc, h.created j x hx]
  · intro x hx
    refine h.known x ?_
    rwa [ne_eq, find_eq_none, hloc, ← find_eq_none] at hx

/-- An account is created. -/
theorem put_new (h : Grown l₀ l new) (ha : l.find a.identifier = none) :
    Grown l₀ (l.put a) (new ++ [a.identifier]) := by
  have hloc {x : AccountId} {i : Location} (hi : l.locationOfAccount x = some i) :
      (l.push a).locationOfAccount x = some i := by
    rw [locationOfAccount_push, hi]
    rfl
  rw [put_of_new ha]
  constructor
  · exact h.depth
  · rw [push, List.length_append, h.length, List.length_append]
    rfl
  · intro j hj hunreached
    have hlt : j < l.slots.length := by
      have := h.length
      omega
    rw [push, List.getElem?_append_left hlt, h.unreached j hj hunreached]
  · intro x hx
    obtain ⟨b, hb⟩ := Option.ne_none_iff_exists'.1 hx
    obtain ⟨i, hi, -, -⟩ := location_of_find hb
    rw [hi]
    exact hloc ((h.located x hx).trans hi)
  · intro j x hx
    rcases Nat.lt_or_ge j new.length with hlt | hge
    · rw [List.getElem?_append_left hlt] at hx
      exact hloc (h.created j x hx)
    · rw [List.getElem?_append_right hge, List.getElem?_singleton] at hx
      split at hx
      next hj =>
        cases hx
        have hlast : j = new.length := by omega
        rw [locationOfAccount_push, find_eq_none.1 ha, Option.none_or, if_pos rfl, h.length, hlast]
      next => cases hx
  · intro x hx
    rw [← put_of_new ha, find_put] at hx
    split at hx
    next heq => exact .inr (List.mem_append_right _ (heq ▸ List.mem_singleton_self _))
    next => exact (h.known x hx).imp_right fun hmem => List.mem_append_left _ hmem

/-! ## Removing what is new -/

/-- The new accounts are found one after the other. -/
theorem mapM_location (h : Grown l₀ l new) :
    new.mapM l.locationOfAccount = some (List.range' l₀.slots.length new.length) := by
  have hall : ∀ (n : Nat) (xs : List AccountId), (∀ i x, xs[i]? = some x → l.locationOfAccount x = some (n + i)) →
      xs.mapM l.locationOfAccount = some (List.range' n xs.length) := by
    intro n xs
    induction xs generalizing n with
    | nil => intro _; rfl
    | cons x xs ih =>
      intro hxs
      have hrest := ih (n + 1) fun i y hy => by
        rw [hxs (i + 1) y hy]
        congr 1
        omega
      rw [List.mapM_cons, hxs 0 x rfl, hrest]
      rfl
  exact hall _ _ h.created

theorem mergeSort_range' (m n : Nat) :
    (List.range' m n).mergeSort (fun i j => decide (j ≤ i)) = (List.range' m n).reverse := by
  have hsorted : ((List.range' m n).mergeSort fun i j => decide (j ≤ i)).Pairwise fun i j => j ≤ i := by
    refine (List.pairwise_mergeSort ?_ ?_ _).imp fun hij => of_decide_eq_true hij
    · intro a b c hab hbc
      simp only [decide_eq_true_eq] at hab hbc ⊢
      omega
    · intro a b
      simp only [Bool.or_eq_true, decide_eq_true_eq]
      omega
  have hreverse : (List.range' m n).reverse.Pairwise fun i j => j ≤ i := by
    rw [List.pairwise_reverse]
    exact (List.pairwise_lt_range' (s := m) (n := n)).imp fun hij => hij.le
  refine List.Perm.eq_of_pairwise (fun a b _ _ hab hba => Nat.le_antisymm hba hab) hsorted hreverse ?_
  exact (List.mergeSort_perm _ _).trans (List.reverse_perm _).symm

theorem foldl_removeAt (l : Accounts F VK) (m n : Nat) (hlength : l.slots.length = m + n) :
    (List.range' m n).reverse.foldl removeAt l = { l with slots := l.slots.take m } := by
  induction n generalizing l with
  | zero => rw [List.range'_zero, List.reverse_nil, List.foldl_nil, List.take_of_length_le (by omega)]
  | succ n ih =>
    have hlast : m + 1 * n + 1 = l.slots.length := by omega
    rw [List.range'_concat, List.reverse_append, List.reverse_singleton, List.singleton_append, List.foldl_cons,
      removeAt, if_pos hlast, ih _ (by rw [List.length_dropLast]; omega)]
    congr 1
    rw [List.dropLast_eq_take, List.take_take]
    congr 1
    omega

/-- **Removing the new accounts** gives back the ledger before them, when the
others are as they were. -/
theorem remove (h : Grown l₀ l new) (hfind : ∀ x, l₀.find x ≠ none → l.find x = l₀.find x) :
    l.remove new = some l₀ := by
  have hslots : l.slots.take l₀.slots.length = l₀.slots := by
    apply List.ext_getElem?
    intro i
    rcases Nat.lt_or_ge i l₀.slots.length with hlt | hge
    · rw [List.getElem?_take_of_lt hlt]
      by_cases hreached : ∃ x, l₀.locationOfAccount x = some i
      · obtain ⟨x, hx⟩ := hreached
        have hfound : l₀.find x ≠ none := by
          rw [ne_eq, find_eq_none, hx]
          exact Option.some_ne_none i
        obtain ⟨a, ha⟩ := Option.ne_none_iff_exists'.1 hfound
        obtain ⟨j, hj, hslot, -⟩ := location_of_find ha
        obtain ⟨j', hj', hslot', -⟩ := location_of_find ((hfind x hfound).trans ha)
        rw [h.located x hfound, hx, Option.some.injEq] at hj'
        rw [hx, Option.some.injEq] at hj
        subst hj hj'
        rw [hslot', hslot]
      · exact h.unreached i hlt fun x hx => hreached ⟨x, hx⟩
    · rw [List.getElem?_eq_none hge, List.getElem?_eq_none]
      rw [List.length_take]
      exact Nat.le_trans (Nat.min_le_left _ _) hge
  rw [Accounts.remove, h.mapM_location, Option.map_some, mergeSort_range', foldl_removeAt l _ _ h.length, hslots,
    h.depth]

end Grown

end Accounts

end Mina.TransactionLogic
