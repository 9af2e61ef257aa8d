/-
The diffs of an added breadcrumb with their mutants, as the frontier's
extensions get them (`apply_diffs` and `add_breadcrumb_exn`).

`addBreadcrumbExn_cases` says all that a step does: a branch that is not too
long gets a leaf; one that gets too long also moves the root to the heir, with
the garbage listed. A change of the best tip comes last.
-/
import Mina.Frontier.WellFormed

namespace Mina.Frontier

open Consensus

variable {F S : Type} [LinearOrder F] (constants : ConsensusConstants) (blake2 : String → String)

/-- `apply_diffs`: the diffs in order, each with what it replaces. -/
def applyDiffsWithMutants (t : T F S) : List (Diff F S) → Exn (T F S × List (Diff F S × Mutant F))
  | [] => .ok (t, [])
  | diff :: diffs =>
    (applyDiff t diff).andThen fun r =>
      (applyDiffsWithMutants r.1 diffs).andThen fun s => .ok (s.1, (diff, r.2.1) :: s.2)

/-- `add_breadcrumb_exn`, up to what the extensions are notified of. -/
def addBreadcrumbExn (t : T F S) (breadcrumb : Breadcrumb F S) : Exn (T F S × List (Diff F S × Mutant F)) :=
  (calculateDiffs constants blake2 t breadcrumb).andThen fun diffs => applyDiffsWithMutants t diffs

section Mutants

variable {t t' : T F S} {pairs : List (Diff F S × Mutant F)}

/-- The frontier is that of `applyDiffs`. -/
theorem applyDiffs_of_withMutants {diffs : List (Diff F S)} (h : applyDiffsWithMutants t diffs = .ok (t', pairs)) :
    applyDiffs t diffs = .ok t' := by
  induction diffs generalizing t pairs with
  | nil =>
    cases h
    rfl
  | cons diff diffs ih =>
    obtain ⟨r, hr, h⟩ := Exn.andThen_eq_ok.1 h
    obtain ⟨s, hs, h⟩ := Exn.andThen_eq_ok.1 h
    cases h
    refine Exn.fold_cons_eq_ok.2 ⟨r.1, ?_, ih hs⟩
    rw [hr, Exn.andThen_ok]

theorem addBreadcrumb_of_exn {b : Breadcrumb F S} (h : addBreadcrumbExn constants blake2 t b = .ok (t', pairs)) :
    addBreadcrumb constants blake2 t b = .ok t' := by
  obtain ⟨diffs, hdiffs, h⟩ := Exn.andThen_eq_ok.1 h
  exact Exn.andThen_eq_ok.2 ⟨diffs, hdiffs, applyDiffs_of_withMutants h⟩

/-- A root move leaves the best tip. -/
theorem moveRoot_bestTip {newRoot : F} {states : List (F × S)} {garbage : List F}
    (h : moveRoot t newRoot states garbage = .ok t') : t'.bestTip = t.bestTip := by
  obtain ⟨-, -, h⟩ := Exn.andThen_eq_ok.1 h
  obtain ⟨n, -, h⟩ := Exn.andThen_eq_ok.1 h
  obtain ⟨t₁, hgarbage, h⟩ := Exn.andThen_eq_ok.1 h
  obtain ⟨txns, -, h⟩ := Exn.andThen_eq_ok.1 h
  obtain ⟨m, -, h⟩ := Exn.andThen_eq_ok.1 h
  cases h
  have hbest : t₁.bestTip = t.bestTip := by
    refine Exn.fold_induct (P := fun s : T F S => s.bestTip = t.bestTip) (fun a c a' _ ha hstep => ?_) rfl hgarbage
    obtain ⟨b, -, hstep⟩ := Exn.andThen_eq_ok.1 hstep
    cases hstep
    exact ha
  exact hbest

/-- The pair of a best tip change, if there is one. -/
def bestPairs (oldBestTip newBestTip : F) (status : Hooks.SelectStatus) : List (Diff F S × Mutant F) :=
  if status = .take then [(.bestTipChanged newBestTip, .bestTipChanged oldBestTip)] else []

theorem applyDiffsWithMutants_best {status : Hooks.SelectStatus} {newBestTip : F}
    (h : applyDiffsWithMutants t (if status = .take then [.bestTipChanged newBestTip] else []) = .ok (t', pairs)) :
    pairs = bestPairs t.bestTip newBestTip status := by
  cases status <;> cases h <;> rfl

theorem applyDiffsWithMutants_newNode {b : Breadcrumb F S} {diffs : List (Diff F S)}
    (h : applyDiffsWithMutants t (.newNode b :: diffs) = .ok (t', pairs)) :
    ∃ t₁ rest, applyDiffsWithMutants t₁ diffs = .ok (t', rest) ∧ pairs = (.newNode b, .newNode) :: rest ∧
      t₁.root = t.root ∧ t₁.bestTip = t.bestTip := by
  obtain ⟨r, hr, h⟩ := Exn.andThen_eq_ok.1 h
  obtain ⟨s, hs, h⟩ := Exn.andThen_eq_ok.1 h
  cases h
  obtain ⟨p, -, hr⟩ := Exn.andThen_eq_ok.1 hr
  obtain ⟨table, -, hr⟩ := Exn.andThen_eq_ok.1 hr
  cases hr
  exact ⟨_, s.2, hs, rfl, rfl, rfl⟩

theorem applyDiffsWithMutants_root {newRoot : F} {states : List (F × S)} {garbage : List F} {emitted : Bool}
    {diffs : List (Diff F S)}
    (h : applyDiffsWithMutants t (.rootTransitioned newRoot states garbage emitted :: diffs) = .ok (t', pairs)) :
    ∃ t₁ rest, applyDiffsWithMutants t₁ diffs = .ok (t', rest) ∧
      pairs = (.rootTransitioned newRoot states garbage emitted, .rootTransitioned t.root) :: rest ∧
      t₁.bestTip = t.bestTip := by
  obtain ⟨r, hr, h⟩ := Exn.andThen_eq_ok.1 h
  obtain ⟨s, hs, h⟩ := Exn.andThen_eq_ok.1 h
  cases h
  obtain ⟨t₁, hmove, hr⟩ := Exn.andThen_eq_ok.1 hr
  cases hr
  exact ⟨t₁, s.2, hs, rfl, moveRoot_bestTip hmove⟩

end Mutants

/-- What a step does to the frontier, with the pairs of its diffs. -/
inductive Added (t : T F S) (b : Breadcrumb F S) (r p : Node F S) (status : Hooks.SelectStatus) :
    T F S → List (Diff F S × Mutant F) → Prop
  | short : ¬ Overflows t r p →
      Added t b r p status { t with table := addLeaf t.table b p, bestTip := newBestTip t b status }
        ((.newNode b, .newNode) :: bestPairs t.bestTip b.stateHash status)
  | long {heir : F} {n : Node F S} {table' : Table F S} {m : F → Option S} {states : List (F × S)}
      {garbage : List F} : Overflows t r p → Heir t b heir n → Subtree (addLeaf t.table b p) heir table' →
      garbage.Nodup → (∀ x, x ∈ garbage ↔ IsGarbage t.table t.root heir x) →
      Added t b r p status { t with
          protocolStatesForRootScanState := m
          table := table'
          root := heir
          bestTip := newBestTip t b status }
        ((.newNode b, .newNode) ::
          (.rootTransitioned heir states garbage n.breadcrumb.justEmittedAProof, .rootTransitioned t.root) ::
          bestPairs t.bestTip b.stateHash status)

/-! ## What a step leaves -/

section Added

variable {t t' : T F S} {b : Breadcrumb F S} {r p : Node F S} {status : Hooks.SelectStatus}
  {pairs : List (Diff F S × Mutant F)} (ht : Rooted t.table t.root) (hfresh : t.table b.stateHash = none)
  (hp : t.table b.parentHash = some p) (hadded : Added t b r p status t' pairs)
include ht hfresh hp hadded

theorem Added.subtree : Subtree (addLeaf t.table b p) t'.root t'.table := by
  cases hadded with
  | short hshort => exact Subtree.all (ht.addLeaf hfresh hp)
  | long hlong hheir hsub hnodup hmem => exact hsub

theorem Added.rooted : Rooted t'.table t'.root := by
  have hrooted : Rooted (addLeaf t.table b p) t.root := ht.addLeaf hfresh hp
  cases hadded with
  | short hshort => exact hrooted
  | long hlong hheir hsub hnodup hmem =>
    obtain ⟨n', hn', -⟩ := addLeaf_some hfresh hp hheir.node
    exact hrooted.subtree ⟨n', hn'⟩ hsub

theorem Added.bounded (hbound : Bounded t) (hr : t.table t.root = some r) : Bounded t' := by
  cases hadded with
  | short hshort => exact hbound.short hfresh hp hr hshort
  | long hlong hheir hsub hnodup hmem => exact hbound.long hfresh hp ht hheir hsub

/-- The new block is in the frontier after the step. -/
theorem Added.new_at : At t' b.stateHash b := by
  have hnew : addLeaf t.table b p b.stateHash = _ := addLeaf_new (fresh_ne hfresh hp)
  cases hadded with
  | short hshort => exact ⟨_, hnew, rfl⟩
  | long hlong hheir hsub hnodup hmem =>
    refine ⟨_, addLeaf_at hfresh hp hsub ?_, rfl⟩
    exact (below_addLeaf hfresh hp ht (hheir.ne_new hfresh)).2 (.inr ⟨rfl, hheir.above⟩)

end Added

section Cases

variable {t t' : T F S} {b : Breadcrumb F S} {pairs : List (Diff F S × Mutant F)}

/-- What a step does, whatever is added. -/
theorem addBreadcrumbExn_cases (ht : Rooted t.table t.root) (hbound : Bounded t)
    (h : addBreadcrumbExn constants blake2 t b = .ok (t', pairs)) :
    ∃ r p tip status, t.table t.root = some r ∧ t.table b.stateHash = none ∧ t.table b.parentHash = some p ∧
      At t t.bestTip tip ∧
      Hooks.select constants blake2 (consensusStateWithHashes tip) (consensusStateWithHashes b) = .ok status ∧
      Added t b r p status t' pairs := by
  have hadd := addBreadcrumb_of_exn constants blake2 h
  obtain ⟨hfresh, p, hp⟩ := fresh_of_addBreadcrumb constants blake2 hadd
  obtain ⟨r, hr⟩ := ht.root_some
  obtain ⟨diffs, hdiffs, h⟩ := Exn.andThen_eq_ok.1 h
  rw [calculateDiffs_eq constants blake2 hr hp] at hdiffs
  obtain ⟨tip, htip, hdiffs⟩ := Exn.andThen_eq_ok.1 hdiffs
  obtain ⟨transition, htransition, hdiffs⟩ := Exn.andThen_eq_ok.1 hdiffs
  obtain ⟨status, hstatus, hdiffs⟩ := Exn.andThen_eq_ok.1 hdiffs
  cases hdiffs
  have hat : At t t.bestTip tip := by
    obtain ⟨n, hn, hbc⟩ := Exn.andThen_eq_ok.1 htip
    cases hbc
    exact ⟨n, findExn_eq_ok.1 hn, rfl⟩
  refine ⟨r, p, tip, status, hr, hfresh, hp, hat, hstatus, ?_⟩
  obtain ⟨t₁, rest, hrest, rfl, hroot, hbest⟩ := applyDiffsWithMutants_newNode h
  by_cases hlong : Overflows t r p
  · by_cases hparent : b.parentHash = t.root
    · exact absurd hadd (addBreadcrumb_root constants blake2 hr hfresh hp hparent hlong t')
    obtain ⟨heir, n, garbage, hheir, hnodup, hmem, heq⟩ := rootTransition_long ht hbound hr hfresh hp hparent hlong
    obtain ⟨heir', n', table', hheir', hsub, hmoved⟩ :=
      addBreadcrumb_long constants blake2 ht hbound hr hfresh hp hparent hlong
    obtain rfl : heir = heir' := ht.siblings_disjoint hheir.edge hheir'.edge hheir.above hheir'.above
    obtain rfl : n = n' := Option.some.inj (hheir.node.symm.trans hheir'.node)
    rw [heq] at htransition
    obtain ⟨states, hstates, htransition⟩ := Exn.andThen_eq_ok.1 htransition
    cases htransition
    obtain ⟨t₂, rest', hrest', rfl, hbest'⟩ := applyDiffsWithMutants_root (t := t₁) hrest
    rw [applyDiffsWithMutants_best (t := t₂) hrest', hroot, hbest'.trans hbest]
    rw [hadd, htip, Exn.andThen_ok, hstates, Exn.andThen_ok, hstatus, Exn.andThen_ok] at hmoved
    obtain ⟨txns, -, hmoved⟩ := Exn.andThen_eq_ok.1 hmoved.symm
    obtain ⟨m, -, hmoved⟩ := Exn.andThen_eq_ok.1 hmoved
    cases hmoved
    exact .long hlong hheir hsub hnodup hmem
  · have hno : ¬ (p.length : Int) + 1 - r.length > t.maxLength := by
      unfold Overflows at hlong
      omega
    rw [rootTransition, if_neg hno] at htransition
    cases htransition
    rw [applyDiffsWithMutants_best (t := t₁) hrest, hbest]
    have hshort := addBreadcrumb_short constants blake2 hr hfresh hp hlong
    rw [hadd, htip, Exn.andThen_ok, hstatus, Exn.andThen_ok] at hshort
    cases hshort
    exact .short hlong

end Cases

end Mina.Frontier
