/-
A list cut into pieces of one length, of which the last may be shorter.

The pieces are the only ones of which all but the last are full
(`chunks_unique`), so whatever cuts a list that way has them.
-/
import Mathlib

namespace Mina

variable {α : Type}

/-- `List.chunks_of` -/
def chunks (n : Nat) (l : List α) : List (List α) :=
  (List.range ((l.length + (n - 1)) / n)).map fun i => (l.drop (i * n)).take n

theorem chunks_nil (n : Nat) : chunks n ([] : List α) = [] := by
  have hzero : (([] : List α).length + (n - 1)) / n = 0 := by
    cases n with
    | zero => exact Nat.div_zero _
    | succ n => exact Nat.div_eq_of_lt (by rw [List.length_nil]; omega)
  rw [chunks, hzero]
  rfl

theorem chunks_of_ne_nil {n : Nat} (hn : 0 < n) {l : List α} (hl : l ≠ []) :
    chunks n l = l.take n :: chunks n (l.drop n) := by
  have hpos := List.length_pos_iff.2 hl
  have hcount : (l.length + (n - 1)) / n = ((l.drop n).length + (n - 1)) / n + 1 := by
    rw [← Nat.add_div_right _ hn, List.length_drop]
    rcases Nat.le_total n l.length with hle | hle
    · congr 1
      omega
    · rw [Nat.sub_eq_zero_of_le hle]
      rw [Nat.div_eq_of_lt_le (k := 1) (by omega) (by omega), Nat.div_eq_of_lt_le (k := 1) (by omega) (by omega)]
  rw [chunks, hcount, List.range_succ_eq_map, List.map_cons, List.map_map, Nat.zero_mul, List.drop_zero, chunks]
  congr 1
  refine List.map_congr_left fun i _ => ?_
  rw [Function.comp_apply, List.drop_drop, Nat.succ_mul, Nat.add_comm]

/-- What is left has less than one piece. -/
theorem chunks_unique {n : Nat} (hn : 0 < n) {rest : List α} (hrest : rest.length < n) :
    ∀ {cs : List (List α)}, (∀ c ∈ cs, c.length = n) →
      chunks n (cs.flatten ++ rest) = cs ++ if rest = [] then [] else [rest]
  | [], _ => by
    rw [List.flatten_nil, List.nil_append, List.nil_append]
    split
    next hnil => rw [hnil, chunks_nil]
    next hne =>
      rw [chunks_of_ne_nil hn hne, List.take_of_length_le hrest.le, List.drop_eq_nil_of_le hrest.le, chunks_nil]
  | c :: cs, hfull => by
    have hc := hfull c List.mem_cons_self
    have hne : c ++ (cs.flatten ++ rest) ≠ [] := by
      intro hnil
      rw [(List.append_eq_nil_iff.1 hnil).1] at hc
      exact hn.ne hc
    rw [List.flatten_cons, List.append_assoc, chunks_of_ne_nil hn hne, ← hc, List.take_left, List.drop_left, hc,
      chunks_unique hn hrest fun d hd => hfull d (List.mem_cons_of_mem _ hd), List.cons_append]

/-- A list is full pieces and a rest. -/
theorem exists_chunks {n : Nat} (hn : 0 < n) (l : List α) :
    ∃ (cs : List (List α)) (rest : List α),
      l = cs.flatten ++ rest ∧ (∀ c ∈ cs, c.length = n) ∧ rest.length < n := by
  induction hlen : l.length using Nat.strong_induction_on generalizing l with
  | _ k ih =>
    rcases Nat.lt_or_ge k n with hlt | hle
    · exact ⟨[], l, rfl, fun c hc => (by cases hc), hlen ▸ hlt⟩
    · obtain ⟨cs, rest, heq, hfull, hrest⟩ := ih (k - n) (by omega) (l.drop n) (by rw [List.length_drop, hlen])
      refine ⟨l.take n :: cs, rest, ?_, fun c hc => ?_, hrest⟩
      · rw [List.flatten_cons, List.append_assoc, ← heq, List.take_append_drop]
      · rcases List.mem_cons.1 hc with rfl | hc
        · rw [List.length_take, hlen, Nat.min_eq_left hle]
        · exact hfull c hc

theorem flatten_chunks {n : Nat} (hn : 0 < n) (l : List α) : (chunks n l).flatten = l := by
  obtain ⟨cs, rest, rfl, hfull, hrest⟩ := exists_chunks hn l
  rw [chunks_unique hn hrest hfull, List.flatten_append]
  congr 1
  split
  next hnil => rw [hnil, List.flatten_nil]
  next => rw [List.flatten_singleton]

/-- All pieces but the last are full. -/
theorem length_of_mem_dropLast_chunks {n : Nat} (hn : 0 < n) {l c : List α} (hc : c ∈ (chunks n l).dropLast) :
    c.length = n := by
  obtain ⟨cs, rest, rfl, hfull, hrest⟩ := exists_chunks hn l
  rw [chunks_unique hn hrest hfull] at hc
  split at hc
  next =>
    rw [List.append_nil] at hc
    exact hfull c (List.dropLast_subset cs hc)
  next =>
    rw [List.dropLast_concat] at hc
    exact hfull c hc

theorem length_of_mem_chunks {n : Nat} (hn : 0 < n) {l c : List α} (hc : c ∈ chunks n l) :
    1 ≤ c.length ∧ c.length ≤ n := by
  obtain ⟨cs, rest, rfl, hfull, hrest⟩ := exists_chunks hn l
  rw [chunks_unique hn hrest hfull] at hc
  rcases List.mem_append.1 hc with hc | hc
  · rw [hfull c hc]
    exact ⟨hn, le_refl n⟩
  · split at hc
    next => cases hc
    next hne =>
      rw [List.mem_singleton.1 hc]
      exact ⟨List.length_pos_iff.2 hne, hrest.le⟩

end Mina
