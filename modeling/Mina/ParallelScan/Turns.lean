/-
The results of listed jobs, added to the trees whose turn it is.

What `add_merge_jobs` does depends on the class whose turn it is: one with
weights that are right takes the results in order, one that is behind takes
what its first tree can, and one that has finished has no work listed. The
state of the line is sound afterwards, with the weights reset or not
(`Line.addMergeJobs`).
-/
import Mina.ParallelScan.Classes

namespace Mina.ParallelScan

open Mina.ParallelScan.Tree State

variable {M B : Type} {h D : Nat} {res : AvailableJob M B → M} {gs gs' : List (Standing B h)}

/-! ## What stays -/

namespace Kept

variable {n : Nat}

theorem refl (D n : Nat) (gs : List (Standing B h)) : Kept D n gs gs := by
  induction gs generalizing n with
  | nil => exact .nil n
  | cons g gs ih => exact .cons (fun _ => rfl) (ih _)

theorem append {a a' b b' : List (Standing B h)} (ha : Kept D n a a') (hb : Kept D (n + a.length) b b') :
    Kept D n (a ++ b) (a' ++ b') := by
  induction ha with
  | nil => exact hb
  | @cons n g g' gs gs' hg hs ih =>
    refine .cons hg (ih ?_)
    rw [Nat.add_right_comm, Nat.add_assoc, ← List.length_cons]
    exact hb

theorem length (hk : Kept D n gs gs') : gs'.length = gs.length := by
  induction hk with
  | nil => rfl
  | cons _ _ ih => rw [List.length_cons, List.length_cons, ih]

theorem symm (hk : Kept D n gs gs') : Kept D n gs' gs := by
  induction hk with
  | nil n => exact .nil n
  | cons hg _ ih => exact .cons (fun hn => (hg hn).symm) ih

theorem mem (hk : Kept D n gs gs') {x : Standing B h × Nat} (hx : x ∈ gs'.zipIdx n) (hturn : x.2 % D ≠ D - 1) :
    x ∈ gs.zipIdx n := by
  induction hk with
  | nil => simp at hx
  | cons hg _ ih =>
    rw [List.zipIdx_cons, List.mem_cons] at hx ⊢
    rcases hx with rfl | hx
    · rw [hg hturn]
      exact .inl rfl
    · exact .inr (ih hx)

/-- The jobs that are listed when the trees have moved one position. -/
theorem workFrom_succ (hD : 2 ≤ D) (hk : Kept D n gs gs') :
    workFrom res D (n + 1) gs' = workFrom res D (n + 1) gs := by
  induction hk with
  | nil => rfl
  | @cons n g g' gs gs' hg _ ih =>
    rw [workFrom, workFrom, ih]
    by_cases hturn : n % D = D - 1
    · have hnext : ¬ (n + 1) % D = D - 1 := by
        rw [Nat.add_mod, hturn, Nat.mod_eq_of_lt (show 1 < D by omega), show D - 1 + 1 = D by omega, Nat.mod_self]
        omega
      rw [if_neg hnext, if_neg hnext]
    · rw [hg hturn]

end Kept

end Mina.ParallelScan
