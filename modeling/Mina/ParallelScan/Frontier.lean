/-
How far a tree of the scan state has been merged, at any time.

The jobs of a level are completed from left to right, and those of a level
never get ahead of what the level below it has completed (`Frontier`). This
alone says what every node of the tree holds, also of a tree on which work was
left behind. `Frontier.jobs` are the jobs to do at a height, and
`Frontier.count` those at or below a node, which is what the weights are reset
to.
-/
import Mina.ParallelScan.Stage

namespace Mina.ParallelScan

open Mina.ParallelScan.Tree

variable {M B : Type}

/-- How many jobs are completed at each height above the leaves. -/
structure Frontier (h : Nat) where
  done : Nat → Nat
  base_le : done 0 ≤ 2 ^ h
  merge_le : ∀ e, 2 * done (e + 1) ≤ done e

namespace Frontier

variable {h : Nat} (F : Frontier h)

/-- No job is completed. -/
def start (h : Nat) : Frontier h where
  done _ := 0
  base_le := Nat.zero_le _
  merge_le _ := le_rfl

/-- How many nodes of a height have had a job. -/
def ready : Nat → Nat
  | 0 => 2 ^ h
  | e + 1 => F.done e / 2

theorem done_le_ready (e : Nat) : F.done e ≤ F.ready e := by
  cases e with
  | zero => exact F.base_le
  | succ e =>
    have := F.merge_le e
    rw [ready]
    omega

theorem ready_le {e : Nat} (he : e ≤ h) : F.ready e ≤ 2 ^ (h - e) := by
  induction e with
  | zero => exact le_rfl
  | succ e ih =>
    have hpow := two_pow_sub (show e < h by omega)
    have hle := (F.done_le_ready e).trans (ih (by omega))
    rw [ready]
    omega

theorem done_le {e : Nat} (he : e ≤ h) : F.done e ≤ 2 ^ (h - e) := (F.done_le_ready e).trans (F.ready_le he)

/-- Above a height without completed jobs there are none. -/
theorem done_eq_zero {e e' : Nat} (hle : e ≤ e') (hd : F.done e = 0) : F.done e' = 0 := by
  induction e', hle using Nat.le_induction with
  | base => exact hd
  | succ e' _ ih =>
    have := F.merge_le e'
    omega

/-! ## What the nodes hold -/

def slot : (e i : Nat) → Slot
  | 0, i => if i < F.done 0 then .done else .todo
  | e + 1, i => if i < F.done (e + 1) then .done else fill (F.done e) i

variable {F} {e i : Nat}

theorem slot_done (hi : i < F.done e) : F.slot e i = .done := by
  cases e <;> rw [slot, if_pos hi]

theorem slot_todo (hd : F.done e ≤ i) (hr : i < F.ready e) : F.slot e i = .todo := by
  cases e with
  | zero => rw [slot, if_neg (by omega)]
  | succ e =>
    rw [ready] at hr
    rw [slot, if_neg (by omega), fill, if_pos (by omega)]

theorem slot_not_ready (hr : F.ready (e + 1) ≤ i) : F.slot (e + 1) i = .part ∨ F.slot (e + 1) i = .empty := by
  have hle := F.done_le_ready (e + 1)
  rw [ready] at hr hle
  rw [slot, if_neg (by omega), fill, if_neg (by omega)]
  split
  · exact .inl rfl
  · exact .inr rfl

/-- The job of a node that is not done is to do, if it had one. -/
theorem slot_eq_todo_iff : F.slot (e + 1) i = .todo ↔ F.done (e + 1) ≤ i ∧ i < F.ready (e + 1) := by
  constructor
  · intro htodo
    refine ⟨?_, ?_⟩
    · by_contra hlt
      rw [slot_done (not_le.1 hlt)] at htodo
      cases htodo
    · by_contra hge
      rcases slot_not_ready (not_lt.1 hge) with hs | hs <;> (rw [hs] at htodo; cases htodo)
  · exact fun hi => slot_todo hi.1 hi.2

theorem slot_above (hd : F.done (e + 1) = 0) : F.slot (e + 1) i = fill (F.done e) i := by
  rw [slot, hd, if_neg (Nat.not_lt_zero i)]

/-! ## Completing jobs -/

/-- The next `n` jobs of height `k` are completed. -/
def advance (F : Frontier h) (k n : Nat) (hn : F.done k + n ≤ F.ready k) (hk : F.done (k + 1) = 0) : Frontier h where
  done e := if e = k then F.done k + n else F.done e
  base_le := by
    by_cases hzero : 0 = k
    · subst hzero
      rw [if_pos rfl]
      exact hn
    · rw [if_neg hzero]
      exact F.base_le
  merge_le e := by
    have hle := F.merge_le e
    by_cases hbelow : e + 1 = k
    · subst hbelow
      rw [ready] at hn
      rw [if_pos rfl, if_neg (by omega)]
      omega
    · rw [if_neg hbelow]
      by_cases hat : e = k
      · subst hat
        rw [hk]
        omega
      · rw [if_neg hat]
        exact hle

section Advance

variable {k n : Nat} (hn : F.done k + n ≤ F.ready k) (hk : F.done (k + 1) = 0)

theorem advance_done : (F.advance k n hn hk).done k = F.done k + n := if_pos rfl

theorem advance_done_ne (he : e ≠ k) : (F.advance k n hn hk).done e = F.done e := if_neg he

theorem advance_ready : (F.advance k n hn hk).ready k = F.ready k := by
  cases k with
  | zero => rfl
  | succ k => rw [ready, ready, advance_done_ne hn hk (by omega)]

theorem advance_slot_ne (he : e ≠ k) (he' : e ≠ k + 1) : (F.advance k n hn hk).slot e i = F.slot e i := by
  cases e with
  | zero => rw [slot, slot, advance_done_ne hn hk he]
  | succ e => rw [slot, slot, advance_done_ne hn hk he, advance_done_ne hn hk (by omega)]

theorem advance_slot_above : (F.advance k n hn hk).slot (k + 1) i = fill (F.done k + n) i := by
  have hidle : (F.advance k n hn hk).done (k + 1) = 0 := (advance_done_ne hn hk (by omega)).trans hk
  rw [slot_above hidle, advance_done]

theorem slot_marked :
    F.slot k i = (if F.done k ≤ i ∧ i < F.done k + n then .todo else F.slot k i) ∧
      (F.advance k n hn hk).slot k i = if F.done k ≤ i ∧ i < F.done k + n then .done else F.slot k i := by
  by_cases hi : F.done k ≤ i ∧ i < F.done k + n
  · rw [if_pos hi, if_pos hi]
    exact ⟨slot_todo hi.1 (by omega), slot_done (by rw [advance_done]; exact hi.2)⟩
  · rw [if_neg hi, if_neg hi]
    refine ⟨rfl, ?_⟩
    by_cases hd : i < F.done k
    · rw [slot_done hd, slot_done (by rw [advance_done]; omega)]
    · cases k with
      | zero => rw [slot, slot, if_neg hd, advance_done, if_neg (by omega)]
      | succ k => rw [slot, slot, if_neg hd, advance_done, if_neg (by omega), advance_done_ne hn hk (by omega)]

end Advance

/-! ## Counting jobs -/

/-- The jobs to do at or below a node. -/
def count (F : Frontier h) : (e i : Nat) → Nat
  | 0, i => if i < F.done 0 then 0 else 1
  | e + 1, i =>
    if F.done (e + 1) ≤ i ∧ i < F.ready (e + 1) then 1 else F.count e (2 * i) + F.count e (2 * i + 1)

theorem count_done (hi : i < F.done e) : F.count e i = 0 := by
  induction e generalizing i with
  | zero => rw [count, if_pos hi]
  | succ e ih =>
    have hle := F.merge_le e
    rw [count, if_neg (by omega), ih (by omega), ih (by omega)]

theorem count_todo (hd : F.done e ≤ i) (hr : i < F.ready e) : F.count e i = 1 := by
  cases e with
  | zero => rw [count, if_neg (by omega)]
  | succ e => rw [count, if_pos ⟨hd, hr⟩]

theorem count_pos (hd : F.done e ≤ i) : 0 < F.count e i := by
  induction e generalizing i with
  | zero =>
    rw [count, if_neg (by omega)]
    exact Nat.one_pos
  | succ e ih =>
    rw [count]
    split
    · exact Nat.one_pos
    next hnot =>
      have hready : F.ready (e + 1) ≤ i := by
        by_contra hlt
        exact hnot ⟨hd, not_le.1 hlt⟩
      rw [ready] at hready
      have := ih (i := 2 * i + 1) (by omega)
      omega

/-- A node above all jobs counts what is below it. -/
theorem count_above (hd : F.done e = 0) : F.count (e + 1) i = F.count e (2 * i) + F.count e (2 * i + 1) := by
  rw [count, ready, hd, if_neg (by omega)]

/-- The jobs to do at or below the nodes before `j`. -/
def countBefore (F : Frontier h) (e j : Nat) : Nat := ∑ i ∈ Finset.range j, F.count e i

theorem countBefore_succ (e j : Nat) : F.countBefore e (j + 1) = F.countBefore e j + F.count e j :=
  Finset.sum_range_succ _ _

theorem countBefore_mono (e : Nat) : Monotone (F.countBefore e) :=
  monotone_nat_of_le_succ fun j => (countBefore_succ e j).symm ▸ Nat.le_add_right _ _

/-- Up to the nodes that had no job yet, every node that is not done counts
one. -/
theorem countBefore_eq {j : Nat} (hj : j ≤ F.ready e) : F.countBefore e j = j - F.done e := by
  induction j with
  | zero => rw [Nat.zero_sub]; rfl
  | succ j ih =>
    rw [countBefore_succ, ih (by omega)]
    by_cases hd : j < F.done e
    · rw [count_done hd]
      omega
    · rw [count_todo (not_lt.1 hd) hj]
      omega

/-- Every node that is not done counts at least one. -/
theorem le_countBefore (e j : Nat) : j ≤ F.countBefore e j + F.done e := by
  induction j with
  | zero => exact Nat.zero_le _
  | succ j ih =>
    rw [countBefore_succ]
    by_cases hd : j < F.done e
    · omega
    · have := count_pos (not_lt.1 hd)
      omega

theorem span_countBefore (hd : F.done e = 0) (s i : Nat) :
    Parts.span (F.countBefore e) s i = F.count (e + s) i := by
  induction s generalizing i with
  | zero => rw [Parts.span_zero, countBefore_succ, Nat.add_sub_cancel_left, Nat.add_zero]
  | succ s ih =>
    rw [Parts.span_succ (countBefore_mono e), ih, ih, ← Nat.add_assoc,
      count_above (F.done_eq_zero (Nat.le_add_right e s) hd)]

end Frontier

/-! ## Reading a tree -/

section Content

variable {res : AvailableJob M B → M} {ds : Nat → B} {h : Nat} {F : Frontier h} {t : JobTree M B}

variable (res ds) in
/-- The jobs to do at a height. -/
def Frontier.jobs (F : Frontier h) (e : Nat) : List (AvailableJob M B) :=
  ((List.range (F.ready e)).drop (F.done e)).map (job res ds e)

theorem Frontier.length_jobs (e : Nat) : (F.jobs res ds e).length = F.ready e - F.done e := by
  rw [jobs, List.length_map, List.length_drop, List.length_range]

theorem filterMap_between {α : Type} (g : Nat → α) {m r n : Nat} (hr : r ≤ n) :
    ((List.range n).filterMap fun i => if m ≤ i ∧ i < r then some (g i) else none) =
      ((List.range r).drop m).map g := by
  obtain ⟨c, rfl⟩ := Nat.exists_eq_add_of_le hr
  have hmore : ((List.range c).map (r + ·)).filterMap (fun i => if m ≤ i ∧ i < r then some (g i) else none) = [] := by
    rw [List.filterMap_eq_nil_iff]
    intro i hi
    obtain ⟨j, -, rfl⟩ := List.mem_map.1 hi
    rw [if_neg (by omega)]
  have hless : ((List.range r).take m).filterMap (fun i => if m ≤ i ∧ i < r then some (g i) else none) = [] := by
    rw [List.filterMap_eq_nil_iff]
    intro i hi
    rw [List.take_range, List.mem_range] at hi
    rw [if_neg (by omega)]
  rw [List.range_add, List.filterMap_append, hmore, List.append_nil, ← List.filterMap_eq_map']
  conv_lhs => rw [← List.take_append_drop m (List.range r), List.filterMap_append, hless, List.nil_append]
  refine List.filterMap_congr fun i hi => ?_
  rw [List.range_eq_range', List.drop_range', List.mem_range'_1] at hi
  rw [if_pos (by omega)]

theorem mergeTodo_slot {e i : Nat} {n : MergeNode M} (hn : MergeIs res ds (e + 1) i (F.slot (e + 1) i) n.2) :
    mergeTodo n = if F.done (e + 1) ≤ i ∧ i < F.ready (e + 1) then some (job res ds (e + 1) i) else none := by
  obtain ⟨w, j⟩ := n
  by_cases hd : i < F.done (e + 1)
  · rw [Frontier.slot_done hd] at hn
    obtain ⟨seq, hn⟩ := hn
    rw [mergeTodo_full hn, if_neg (by simp), if_neg (by omega)]
  · by_cases hr : i < F.ready (e + 1)
    · rw [Frontier.slot_todo (not_lt.1 hd) hr] at hn
      obtain ⟨seq, hn⟩ := hn
      rw [mergeTodo_full hn, if_pos rfl, if_pos ⟨not_lt.1 hd, hr⟩]
      rfl
    · rw [if_neg (by omega)]
      rcases Frontier.slot_not_ready (not_lt.1 hr) with hs | hs <;> (rw [hs] at hn; dsimp only [MergeIs] at hn; subst hn; rfl)

theorem baseTodo_slot {i : Nat} (hi : i < 2 ^ h) {n : BaseNode B} (hn : BaseIs ds i (F.slot 0 i) n.2) :
    baseTodo n = if F.done 0 ≤ i ∧ i < F.ready 0 then some (job res ds 0 i) else none := by
  by_cases hd : i < F.done 0
  · rw [Frontier.slot_done hd] at hn
    obtain ⟨seq, hn⟩ := hn
    rw [baseTodo_full hn, if_neg (by simp), if_neg (by omega)]
  · rw [Frontier.slot_todo (not_lt.1 hd) hi] at hn
    obtain ⟨seq, hn⟩ := hn
    rw [baseTodo_full hn, if_pos rfl, if_pos ⟨not_lt.1 hd, hi⟩]
    rfl

theorem Content.jobsAt {e : Nat} (he : e ≤ h) (hc : Content res ds h F.slot t) :
    t.jobsOnLevel h (h - e : Nat) = F.jobs res ds e := by
  obtain ⟨fm, fb, rfl, hholds⟩ := hc
  rw [jobsOnLevel_build, Frontier.jobs, ← filterMap_between _ (F.ready_le he)]
  cases e with
  | zero =>
    rw [Nat.sub_zero, if_neg (Nat.lt_irrefl h), if_pos rfl]
    exact List.filterMap_congr fun i hi => baseTodo_slot (List.mem_range.1 hi) (hholds.base i (List.mem_range.1 hi))
  | succ e =>
    rw [if_pos (by omega)]
    refine List.filterMap_congr fun i hi => mergeTodo_slot ?_
    have hm := hholds.merge (h - (e + 1)) (by omega) i (List.mem_range.1 hi)
    rw [show h - (h - (e + 1)) = e + 1 by omega] at hm
    exact hm

theorem Content.data (hc : Content res ds h F.slot t) : t.baseJobs = (List.range (2 ^ h)).map ds := by
  obtain ⟨fm, fb, rfl, hholds⟩ := hc
  rw [baseJobs_build, ← List.filterMap_eq_map']
  refine List.filterMap_congr fun i hi => ?_
  have hb := hholds.base i (List.mem_range.1 hi)
  by_cases hd : i < F.done 0
  · rw [Frontier.slot_done hd] at hb
    obtain ⟨seq, hb⟩ := hb
    rw [leafJob_full hb]
  · rw [Frontier.slot_todo (not_lt.1 hd) (List.mem_range.1 hi)] at hb
    obtain ⟨seq, hb⟩ := hb
    rw [leafJob_full hb]

end Content

end Mina.ParallelScan
