/-
Tables of reference counts.

A table counts a list if it holds, for each element, how often it is in the
list, and nothing for an element that is not in it. An increment puts an
element on the list, a decrement takes it off, and the order of the list does
not matter.
-/
import Mathlib

namespace Mina.RefCount

variable {W : Type} [DecidableEq W]

/-- What a table holds for a number of references. -/
def entry (n : Nat) : Option Int := if n = 0 then none else some n

/-- The table holds how often each element is in the list. -/
def Counts (table : W → Option Int) (l : List W) : Prop := ∀ w, table w = entry (l.count w)

@[simp] theorem entry_zero : entry 0 = none := rfl

theorem entry_succ (n : Nat) : entry (n + 1) = some ((n : Int) + 1) := by
  rw [entry, if_neg (Nat.succ_ne_zero n)]
  push_cast
  rfl

theorem entry_isSome {n : Nat} : (entry n).isSome = true ↔ 0 < n := by
  cases n with
  | zero => simp
  | succ n => simp [entry_succ]

theorem entry_eq_some {n : Nat} {c : Int} (h : entry n = some c) : c = n := by
  cases n with
  | zero => cases h
  | succ n =>
    rw [entry_succ, Option.some.injEq] at h
    rw [← h]
    push_cast
    rfl

variable {table : W → Option Int} {l l' : List W}

theorem Counts.perm (h : Counts table l) (hperm : l.Perm l') : Counts table l' := fun w => by
  rw [h w, hperm.count_eq]

theorem Counts.isSome (h : Counts table l) (w : W) : (table w).isSome = true ↔ w ∈ l := by
  rw [h w, entry_isSome, List.count_pos_iff]

/-- One more reference. -/
theorem Counts.cons (h : Counts table l) {w : W} {c : Option Int} (hc : c = entry (l.count w + 1)) :
    Counts (Function.update table w c) (w :: l) := fun x => by
  by_cases hx : x = w
  · rw [hx, Function.update_self, List.count_cons_self, hc]
  · rw [Function.update_of_ne hx, List.count_cons_of_ne (Ne.symm hx), h x]

/-- One reference less. -/
theorem Counts.tail {w : W} (h : Counts table (w :: l)) {c : Option Int} (hc : c = entry (l.count w)) :
    Counts (Function.update table w c) l := fun x => by
  by_cases hx : x = w
  · rw [hx, Function.update_self, hc]
  · rw [Function.update_of_ne hx, h x, List.count_cons_of_ne (Ne.symm hx)]

/-- In lists without repetitions an element is once at most. -/
theorem count_flatMap_of_nodup {α : Type} {f : α → List W} (w : W) : ∀ {l : List α}, (∀ a ∈ l, (f a).Nodup) →
    (l.flatMap f).count w = l.countP fun a => decide (w ∈ f a)
  | [], _ => rfl
  | a :: l, h => by
    have ih := count_flatMap_of_nodup w (l := l) fun a ha => h a (List.mem_cons_of_mem _ ha)
    have hnodup := h a List.mem_cons_self
    rw [List.flatMap_cons, List.count_append, ih, List.countP_cons, Nat.add_comm]
    by_cases hw : w ∈ f a
    · rw [List.count_eq_one_of_mem hnodup hw, if_pos (decide_eq_true hw)]
    · rw [List.count_eq_zero.2 hw, if_neg (by simpa using hw)]

end Mina.RefCount
