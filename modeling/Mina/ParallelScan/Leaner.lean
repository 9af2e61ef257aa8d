/-
The scan state as it is serialised: `with_leaner_trees` empties the merge
nodes whose jobs are completed.

An update at level `u` addresses the merge nodes of two levels of a tree. At
`u` a completed job and an empty node both refuse a job, and at `u - 1` no job
is completed, as long as none is above `u` (`SameTree`). Nothing that reads a
tree tells a completed job from an empty node.
-/
import Mina.ParallelScan.Related
import Mina.ParallelScan.Update

namespace Mina.ParallelScan

open Mina.ParallelScan.Tree State
open Exn (Agree)

variable {M B : Type}

/-! ## What is serialised -/

/-- `f_merge` of `with_leaner_trees`. -/
def leanMerge : MergeNode M → MergeNode M
  | (w, .full ⟨_, _, _, .done⟩) => (w, .empty)
  | v => v

def leanTree (tree : JobTree M B) : JobTree M B := tree.map leanMerge id

namespace State

def withLeanerTrees (t : State M B) : State M B := { t with trees := t.trees.map leanTree }

def pendingData (t : State M B) : List B := t.trees.toList.reverse.flatMap Tree.baseJobs

end State

/-! ## Nodes -/

def Completed (j : MergeJob M) : Prop := ∃ left right seqNo, j = .full ⟨left, right, seqNo, .done⟩

/-- Nothing is to do at the node. -/
def Blank (j : MergeJob M) : Prop := j = .empty ∨ Completed j

/-- Two nodes of level `i` that are the same but for completed jobs, of which
there are none above level `u`. -/
structure SameNode (u : Int) (i : Nat) (v v' : MergeNode M) : Prop where
  lean : leanMerge v = leanMerge v'
  level : Completed v.2 → u ≤ i
  level' : Completed v'.2 → u ≤ i

theorem leanMerge_cases (v : MergeNode M) :
    (¬ Completed v.2 ∧ leanMerge v = v) ∨ (Completed v.2 ∧ leanMerge v = (v.1, .empty)) := by
  obtain ⟨w, j⟩ := v
  rcases j with _ | a | ⟨l, r, seq, _ | _⟩
  · exact .inl ⟨fun h => (by obtain ⟨_, _, _, h⟩ := h; cases h), rfl⟩
  · exact .inl ⟨fun h => (by obtain ⟨_, _, _, h⟩ := h; cases h), rfl⟩
  · exact .inl ⟨fun h => (by obtain ⟨_, _, _, h⟩ := h; cases h), rfl⟩
  · exact .inr ⟨⟨l, r, seq, rfl⟩, rfl⟩

theorem leanMerge_not_completed (v : MergeNode M) : ¬ Completed (leanMerge v).2 := by
  rcases leanMerge_cases v with h | h
  · rw [h.2]
    exact h.1
  · rw [h.2]
    rintro ⟨_, _, _, h⟩
    cases h

theorem leanMerge_idem (v : MergeNode M) : leanMerge (leanMerge v) = leanMerge v := by
  rcases leanMerge_cases (leanMerge v) with h | h
  · exact h.2
  · exact absurd h.1 (leanMerge_not_completed v)

theorem leanMerge_fst (v : MergeNode M) : (leanMerge v).1 = v.1 := by
  rcases leanMerge_cases v with h | h <;> rw [h.2]

/-- Two such nodes are equal, or nothing is to do at either. -/
theorem SameNode.cases {u : Int} {i : Nat} {v v' : MergeNode M} (h : SameNode u i v v') :
    v = v' ∨ v.1 = v'.1 ∧ u ≤ i ∧ Blank v.2 ∧ Blank v'.2 := by
  have hlean := h.lean
  have hw : v.1 = v'.1 := by rw [← leanMerge_fst v, hlean, leanMerge_fst]
  rcases leanMerge_cases v with hv | hv <;> rcases leanMerge_cases v' with hv' | hv' <;> rw [hv.2, hv'.2] at hlean
  · exact .inl hlean
  · exact .inr ⟨hw, h.level' hv'.1, .inl (by rw [hlean]), .inr hv'.1⟩
  · exact .inr ⟨hw, h.level hv.1, .inr hv.1, .inl (by rw [← hlean])⟩
  · exact .inr ⟨hw, h.level hv.1, .inr hv.1, .inr hv'.1⟩

theorem SameNode.mono {u u' : Int} {i : Nat} {v v' : MergeNode M} (h : SameNode u i v v') (hu : u' ≤ u) :
    SameNode u' i v v' :=
  ⟨h.lean, fun hd => hu.trans (h.level hd), fun hd => hu.trans (h.level' hd)⟩

theorem SameNode.refl {u : Int} {i : Nat} {v : MergeNode M} (h : Completed v.2 → u ≤ i) : SameNode u i v v :=
  ⟨rfl, h, h⟩

theorem SameNode.of_blank {u : Int} {i : Nat} {v v' : MergeNode M} (hw : v.1 = v'.1) (hu : u ≤ i) (hv : Blank v.2)
    (hv' : Blank v'.2) : SameNode u i v v' := by
  have hblank : ∀ {v : MergeNode M}, Blank v.2 → leanMerge v = (v.1, .empty) := by
    intro v hv
    rcases leanMerge_cases v with h | h
    · rw [h.2]
      exact Prod.ext rfl (hv.resolve_right h.1)
    · exact h.2
  refine ⟨?_, fun _ => hu, fun _ => hu⟩
  rw [hblank hv, hblank hv', hw]

section Nodes

variable {lens : WeightLens} {u : Int} {seqNo : Int} {jobs : List (Job M B)} {i : Nat}

/-- A job is only completed on the updated level. -/
theorem addMerges_completed_inv {v p : MergeNode M} {result : Option M}
    (h : addMerges lens u seqNo jobs i v = .ok (p, result)) (hdone : Completed p.2) : Completed v.2 ∨ (i : Int) = u := by
  obtain ⟨⟨w1, w2⟩, j⟩ := v
  by_cases hcompleted : (i : Int) = u
  · exact .inr hcompleted
  refine .inl ?_
  have hnot : ∀ {l r : M} {seq : Int}, ¬ Completed (.full ⟨l, r, seq, .todo⟩ : MergeJob M) := by
    rintro l r seq ⟨_, _, _, h⟩
    cases h
  have hpart : ∀ {l : M}, ¬ Completed (.part l : MergeJob M) := by
    rintro l ⟨_, _, _, h⟩
    cases h
  unfold addMerges at h
  dsimp only at h
  rw [if_neg hcompleted] at h
  split at h
  next =>
    split at h
    next => cases h; exact hdone
    next => cases h; exact absurd hdone hnot
    next => cases h; exact absurd hdone hpart
    next => cases h; exact absurd hdone hnot
    next => split at h <;> (cases h; exact hdone)
    next => cases h; exact hdone
    next => cases h
  next =>
    split at h
    next =>
      split at h
      next => cases h; exact hdone
      next => cases h; exact hdone
    next => cases h; exact hdone

/-- A node where nothing is to do refuses jobs on the updated level, and below
it is left as it is. -/
theorem addMerges_blank (hu : u ≤ i) {v : MergeNode M} (hv : Blank v.2) :
    addMerges lens u seqNo jobs i v = .ok (v, none) ∧ (jobs = [] ∨ u < i) ∨
      (∃ e, addMerges lens u seqNo jobs i v = .error e) ∧ ¬ (jobs = [] ∨ u < i) := by
  obtain ⟨⟨w1, w2⟩, j⟩ := v
  unfold addMerges
  dsimp only
  rw [if_neg (by omega)]
  by_cases hlevel : (i : Int) = u
  · rw [if_pos hlevel]
    split
    next a l r seq =>
      rcases hv with hv | ⟨_, _, _, hv⟩ <;> cases hv
    next => exact .inl ⟨rfl, .inl rfl⟩
    next hnil _ =>
      refine .inr ⟨⟨_, rfl⟩, ?_⟩
      rintro (h | h)
      · exact hnil h
      · omega
  · rw [if_neg hlevel, if_neg (by omega)]
    exact .inl ⟨rfl, .inr (by omega)⟩

theorem addMerges_agree {v v' : MergeNode M} (h : SameNode u i v v') :
    Agree (fun p p' => SameNode u i p.1 p'.1 ∧ p.2 = p'.2) (addMerges lens u seqNo jobs i v)
      (addMerges lens u seqNo jobs i v') := by
  rcases h.cases with rfl | ⟨hw, hu, hv, hv'⟩
  · refine .refl fun p hp => ⟨.refl fun hdone => ?_, rfl⟩
    rcases addMerges_completed_inv hp hdone with hdone | hlevel
    · exact h.level hdone
    · exact hlevel.ge
  · have hblank := @addMerges_blank M B lens u seqNo jobs i hu
    rcases hblank hv with ⟨hok, hc⟩ | ⟨⟨e, herror⟩, hc⟩ <;> rcases hblank hv' with ⟨hok', hc'⟩ | ⟨⟨e', herror'⟩, hc'⟩
    · rw [hok, hok']
      exact .ok ⟨h, rfl⟩
    · exact absurd hc hc'
    · exact absurd hc' hc
    · rw [herror, herror']
      exact .error e e'

end Nodes

/-! ## Trees -/

/-- Two trees on which update level `u` is to be completed, or one below
it. -/
def SameTree (u : Int) (t t' : JobTree M B) : Prop := Related (SameNode u) Eq t t'

section Trees

variable {u : Int} {t t' : JobTree M B}

theorem SameTree.mono {u' : Int} (h : SameTree u t t') (hu : u' ≤ u) : SameTree u' t t' :=
  Related.mono h (fun _ _ _ hv => hv.mono hu) fun _ _ hd => hd

theorem SameTree.lean (h : SameTree u t t') : leanTree t = leanTree t' :=
  Related.map_eq h (fun _ _ _ hv => hv.lean) fun _ _ hd => hd

theorem SameTree.update {lens : WeightLens} {seqNo : Int} {jobs : List (Job M B)} (h : SameTree u t t') :
    Agree (fun p p' => SameTree u p.1 p'.1 ∧ p.2 = p'.2) (t.update lens u seqNo jobs) (t'.update lens u seqNo jobs) := by
  have hmerge : ∀ (jobs : List (Job M B)) (i : Nat) (v v' : MergeNode M), SameNode u i v v' →
      Agree (fun p p' => SameNode u i p.1 p'.1 ∧ p.2 = p'.2) (addMerges lens u seqNo jobs i v)
        (addMerges lens u seqNo jobs i v') := fun _ _ _ _ hv => addMerges_agree hv
  refine Related.updateSplit h hmerge (fun jobs d d' hd => ?_) (fun i v v' hv => ?_) _ _ _
  · rw [hd]
    exact .refl fun d _ => rfl
  · rw [← leanMerge_fst v, hv.lean, leanMerge_fst]

/-- Resetting the weights treats a completed job as an empty node. -/
theorem SameTree.resetWeights (h : SameTree u t t') (weightType : WeightType) :
    SameTree u (t.resetWeights weightType) (t'.resetWeights weightType) := by
  refine (Related.updateAccumulate h (fun lst i v v' hv => ?_) fun d d' hd => ?_).1
  · have hblank : ∀ {v : MergeNode M}, Blank v.2 → resetMerge weightType lst v =
        (((resetMerge weightType lst (v.1, (.empty : MergeJob M))).1.1, v.2),
          (resetMerge weightType lst (v.1, (.empty : MergeJob M))).2) := by
      rintro ⟨w, j⟩ (hj | ⟨l, r, seq, hj⟩) <;> (dsimp only at hj; subst hj; cases weightType <;> rfl)
    rcases hv.cases with rfl | ⟨hw, hu, hb, hb'⟩
    · exact ⟨.refl fun hdone => hv.level hdone, rfl⟩
    · rw [hblank hb, hblank hb', hw]
      exact ⟨.of_blank rfl hu hb hb', rfl⟩
  · rw [hd]
    exact ⟨rfl, rfl⟩

theorem SameTree.renumber (h : SameTree u t t') (newSeq : Int → Int) :
    SameTree u (t.map (renumberMerge newSeq) (renumberBase newSeq))
      (t'.map (renumberMerge newSeq) (renumberBase newSeq)) := by
  refine Related.map h (fun i v v' hv => ?_) fun d d' hd => by rw [hd]
  have hcompleted : ∀ {v : MergeNode M}, Completed (renumberMerge newSeq v).2 → Completed v.2 := by
    rintro ⟨w, j⟩ ⟨l, r, seq, hj⟩
    cases j with
    | empty => cases hj
    | part a => cases hj
    | full x =>
      obtain ⟨l, r, seq, status⟩ := x
      cases hj
      exact ⟨l, r, seq, rfl⟩
  have hblank : ∀ {v : MergeNode M}, Blank v.2 → Blank (renumberMerge newSeq v).2 := by
    rintro ⟨w, j⟩ (hj | ⟨l, r, seq, hj⟩) <;> (dsimp only at hj; subst hj)
    · exact .inl rfl
    · exact .inr ⟨l, r, _, rfl⟩
  rcases hv.cases with rfl | ⟨hw, hu, hb, hb'⟩
  · exact .refl fun hdone => hv.level (hcompleted hdone)
  · exact .of_blank (by rw [renumberMerge_weight, renumberMerge_weight, hw]) hu (hblank hb) (hblank hb')

theorem sameTree_createTree (u : Int) (depth : Nat) : SameTree u (createTree depth : JobTree M B) (createTree depth) := by
  refine Related.createLevels (fun i => .refl fun hdone => ?_) rfl _ _
  obtain ⟨_, _, _, hdone⟩ := hdone
  cases hdone

/-- A tree without completed jobs above level `u` is the same as what is
serialised of it. -/
theorem SameTree.lean_right (h : SameTree u t t) : SameTree u t (leanTree t) :=
  Related.map_right h (fun _ _ v' hv => ⟨hv.lean.trans (leanMerge_idem v').symm, hv.level,
    fun hdone => absurd hdone (leanMerge_not_completed v')⟩) fun _ _ hd => hd

end Trees

/-! ## What reads a tree -/

section Reads

variable (t : JobTree M B)

theorem related_lean : Related (fun _ v v' => leanMerge v = v') Eq t (leanTree t) :=
  (Related.refl (fun _ _ => rfl) (fun _ => rfl) t : Related (fun _ => Eq) Eq t t).map_right
    (fun _ _ _ hv => by rw [hv]) fun _ _ hd => hd

theorem jobsOnLevel_lean (depth level : Int) : (leanTree t).jobsOnLevel depth level = t.jobsOnLevel depth level := by
  have htodo : ∀ v : MergeNode M, (mergeTodo v : Option (AvailableJob M B)) = mergeTodo (leanMerge v) := by
    rintro ⟨w, _ | a | ⟨l, r, seq, _ | _⟩⟩ <;> rfl
  refine congrArg List.reverse ((related_lean t).foldDepth_eq (fun i acc v v' hv => ?_) (fun acc d d' hd => ?_) []).symm
  · rw [htodo, hv]
  · rw [hd]

theorem baseJobs_lean : (leanTree t).baseJobs = t.baseJobs :=
  congrArg List.reverse ((related_lean t).foldDepth_eq (fun _ _ _ _ _ => rfl) (fun _ _ _ hd => by rw [hd]) []).symm

theorem leaves_lean : (leanTree t).leaves = t.leaves :=
  congrArg List.reverse ((related_lean t).foldDepth_eq (fun _ _ _ _ _ => rfl) (fun _ _ _ hd => by rw [hd]) []).symm

theorem availableSpace_lean : (leanTree t).availableSpace = t.availableSpace := by
  cases t with
  | leaf d => rfl
  | node depth v sub => simp only [leanTree, Tree.map, Tree.mapDepth, Tree.availableSpace, leanMerge_fst]

theorem requiredJobCount_lean : (leanTree t).requiredJobCount = t.requiredJobCount := by
  cases t with
  | leaf d => rfl
  | node depth v sub => simp only [leanTree, Tree.map, Tree.mapDepth, Tree.requiredJobCount, leanMerge_fst]

end Reads

end Mina.ParallelScan
