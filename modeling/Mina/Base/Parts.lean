/-
Sharing out a list among positions, from left to right. `before j` entries go
to the positions before `j`, so a block of positions gets a part of the list
(`part`), as long as the difference at its ends (`span`), and the parts of the
two halves of a block are the halves of its part.
-/
import Mathlib

namespace Mina.Parts

variable {α : Type*} {before : Nat → Nat} {s i : Nat} {l : List α}

/-- What the `i`th block of `2 ^ s` positions can get. -/
def span (before : Nat → Nat) (s i : Nat) : Nat := before ((i + 1) * 2 ^ s) - before (i * 2 ^ s)

/-- What it gets of a list. -/
def part (before : Nat → Nat) (s i : Nat) (l : List α) : List α := (l.drop (before (i * 2 ^ s))).take (span before s i)

theorem block_left (s i : Nat) : 2 * i * 2 ^ s = i * 2 ^ (s + 1) := by
  rw [Nat.pow_succ]
  ring

theorem block_right (s i : Nat) : (2 * i + 1 + 1) * 2 ^ s = (i + 1) * 2 ^ (s + 1) := by
  rw [Nat.pow_succ]
  ring

theorem block_le (s i : Nat) : i * 2 ^ s ≤ (i + 1) * 2 ^ s := Nat.mul_le_mul_right _ (Nat.le_succ i)

/-- The ends of the two halves of a block. -/
theorem ends (hmono : Monotone before) (s i : Nat) :
    before (i * 2 ^ (s + 1)) ≤ before ((2 * i + 1) * 2 ^ s) ∧
      before ((2 * i + 1) * 2 ^ s) ≤ before ((i + 1) * 2 ^ (s + 1)) := by
  rw [← block_left, ← block_right]
  exact ⟨hmono (block_le s (2 * i)), hmono (block_le s (2 * i + 1))⟩

theorem span_left : span before s (2 * i) = before ((2 * i + 1) * 2 ^ s) - before (i * 2 ^ (s + 1)) := by
  rw [span, block_left]

theorem span_right : span before s (2 * i + 1) = before ((i + 1) * 2 ^ (s + 1)) - before ((2 * i + 1) * 2 ^ s) := by
  rw [span, block_right]

theorem span_succ (hmono : Monotone before) :
    span before (s + 1) i = span before s (2 * i) + span before s (2 * i + 1) := by
  have hends := ends hmono s i
  rw [span_left, span_right, span]
  omega

theorem part_left (hmono : Monotone before) :
    (part before (s + 1) i l).take (span before s (2 * i)) = part before s (2 * i) l := by
  rw [part, part, List.take_take, span_succ hmono, block_left, Nat.min_eq_left (Nat.le_add_right _ _)]

theorem part_right (hmono : Monotone before) :
    ((part before (s + 1) i l).drop (span before s (2 * i))).take (span before s (2 * i + 1)) =
      part before s (2 * i + 1) l := by
  have hends := ends hmono s i
  rw [part, part, List.drop_take, List.take_take, List.drop_drop, span_succ hmono, Nat.add_sub_cancel_left,
    Nat.min_self, span_left, Nat.add_sub_cancel' hends.1]

theorem part_append (hmono : Monotone before) :
    part before (s + 1) i l = part before s (2 * i) l ++ part before s (2 * i + 1) l := by
  have hlen : ((part before (s + 1) i l).drop (span before s (2 * i))).length ≤ span before s (2 * i + 1) := by
    rw [List.length_drop, part, List.length_take, span_succ hmono]
    omega
  rw [← part_left hmono, ← part_right hmono, List.take_of_length_le hlen, List.take_append_drop]

theorem length_part : (part before s i l).length = min (span before s i) (l.length - before (i * 2 ^ s)) := by
  rw [part, List.length_take, List.length_drop]

/-- What is taken can no longer be got. -/
theorem span_sub (hmono : Monotone before) :
    span (fun j => before j - l.length) s i + (part before s i l).length = span before s i := by
  have hend := hmono (block_le s i)
  rw [length_part, span, span]
  omega

theorem part_root (hzero : before 0 = 0) (hlen : l.length ≤ before (2 ^ s)) : part before s 0 l = l := by
  rw [part, span, Nat.zero_mul, hzero, List.drop_zero, Nat.zero_add, Nat.one_mul, Nat.sub_zero,
    List.take_of_length_le hlen]

theorem span_zero : span before 0 i = before (i + 1) - before i := by
  rw [span, Nat.pow_zero, Nat.mul_one, Nat.mul_one]

/-- Pairs of positions as positions. -/
theorem span_pairs : span (fun j => before (2 * j)) s i = span before (s + 1) i := by
  rw [span, span, Nat.pow_succ]
  congr 2 <;> ring

/-- Some position from `n` on gets something of a list that is too long for
the positions before `n`. -/
theorem exists_part_ne_nil (hmono : Monotone before) {n m : Nat} (hlt : before n < l.length)
    (hle : l.length ≤ before m) : ∃ j, n ≤ j ∧ j < m ∧ part before 0 j l ≠ [] := by
  induction m with
  | zero => exact absurd (hmono (Nat.zero_le n)) (by omega)
  | succ m ih =>
    by_cases hm : l.length ≤ before m
    · obtain ⟨j, hn, hj, hne⟩ := ih hm
      exact ⟨j, hn, hj.trans (Nat.lt_succ_self m), hne⟩
    · have hnm : n ≤ m := by
        by_contra hgt
        exact absurd (hmono (show m + 1 ≤ n by omega)) (by omega)
      refine ⟨m, hnm, Nat.lt_succ_self m, List.ne_nil_of_length_pos ?_⟩
      rw [length_part, span_zero, Nat.pow_zero, Nat.mul_one]
      omega

end Mina.Parts
