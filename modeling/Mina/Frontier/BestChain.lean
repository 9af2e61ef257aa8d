/-
The best tip diffs over whole runs.

`Grown` keeps, with the frontier, the chain of each block from the original
root on. A diff of the best tip splits the two chains at their last common
block (`Describes`), as long as the old best tip is still in the frontier after
the step. When the step moves the root to a branch that the old best tip is
not on, looking it up raises.
-/
import Mina.Frontier.CommonAncestor

namespace Mina.Frontier

open Consensus

variable {F S C : Type} [LinearOrder F] (constants : ConsensusConstants) (blake2 : String → String)

/-- The chains after a breadcrumb has been added. -/
def addPath (paths : F → List (Breadcrumb F S)) (b : Breadcrumb F S) : F → List (Breadcrumb F S) :=
  Function.update paths b.stateHash (paths b.parentHash ++ [b])

/-- The frontiers that grow from a single root, with the chain of each block
from that root on. -/
inductive Grown : T F S → (F → List (Breadcrumb F S)) → Prop
  | create {root : Breadcrumb F S} {protocolStates : List (F × S)} {maxLength : Nat} {t : T F S} : 1 ≤ maxLength →
      create root protocolStates maxLength = .ok t → Grown t (Function.update (fun _ => []) root.stateHash [root])
  | add {t t' : T F S} {paths : F → List (Breadcrumb F S)} {b : Breadcrumb F S}
      {pairs : List (Diff F S × Mutant F)} : Grown t paths → addBreadcrumbExn constants blake2 t b = .ok (t', pairs) →
      Grown t' (addPath paths b)

/-- What the extension is to say of a step: there is a view exactly if the
best tip changed, and then the chains of the two tips go on from their last
common block with the removed and the new commands, and it is a
reorganisation exactly if the old tip is no ancestor of the new one. -/
def Describes (commands : Breadcrumb F S → List C) (paths : F → List (Breadcrumb F S)) (oldTip newTip : F)
    (result : Exn (Option (BestTipView C))) : Prop :=
  ∃ view, result = .ok view ∧ (view.isSome = true ↔ newTip ≠ oldTip) ∧ ∀ v, view = some v →
    ∃ common restOld restNew, paths oldTip = common ++ restOld ∧ paths newTip = common ++ restNew ∧
      common ≠ [] ∧ (restOld.map (·.stateHash)).Disjoint (restNew.map (·.stateHash)) ∧
      v.removedCommands = restOld.flatMap commands ∧ v.newCommands = restNew.flatMap commands ∧
      (v.reorgBestTip = true ↔ ¬ paths oldTip <+: paths newTip)

/-- If the new block is taken as the best tip and moves the root, the old best
tip is below the new root. -/
def OldTipKept (t : T F S) (b : Breadcrumb F S) : Prop :=
  ∀ r p tip heir n, t.table t.root = some r → t.table b.parentHash = some p → At t t.bestTip tip →
    Hooks.select constants blake2 (consensusStateWithHashes tip) (consensusStateWithHashes b) = .ok .take →
    Overflows t r p → Heir t b heir n → Below t.table heir t.bestTip

/-! ## The trees of a run -/

section Step

variable {t t' : T F S} {paths : F → List (Breadcrumb F S)} {b : Breadcrumb F S} {r p : Node F S}
  {status : Hooks.SelectStatus} {pairs : List (Diff F S × Mutant F)}

structure Tree (t : T F S) (paths : F → List (Breadcrumb F S)) : Prop where
  rooted : Rooted t.table t.root
  bounded : Bounded t
  paths : HasPaths t paths
  max : 1 ≤ t.maxLength

theorem Tree.create {root : Breadcrumb F S} {protocolStates : List (F × S)} {maxLength : Nat} (hmax : 1 ≤ maxLength)
    (h : create root protocolStates maxLength = .ok t) :
    Tree t (Function.update (fun _ => []) root.stateHash [root]) := by
  have hwf := create_wellFormed h
  obtain ⟨m, -, h⟩ := Exn.andThen_eq_ok.1 h
  cases h
  refine ⟨hwf.rooted, hwf.bounded, ⟨fun h n hn hne => ?_, fun h n hn => ?_⟩, hmax⟩
  · obtain ⟨rfl, rfl⟩ := single_some hn
    exact absurd rfl hne
  · obtain ⟨rfl, rfl⟩ := single_some hn
    rw [Function.update_self]
    rfl

section Added

variable (htree : Tree t paths) (hr : t.table t.root = some r) (hfresh : t.table b.stateHash = none)
  (hp : t.table b.parentHash = some p)
include htree hfresh hp

/-- The chains of the table with the new leaf. -/
theorem Tree.addLeaf_paths {h : F} {n : Node F S} (hn : addLeaf t.table b p h = some n) :
    (h ≠ t.root → addPath paths b h = addPath paths b n.breadcrumb.parentHash ++ [n.breadcrumb]) ∧
      (addPath paths b h).getLast? = some n.breadcrumb := by
  have hother : ∀ {x m}, t.table x = some m → addPath paths b x = paths x := fun {x m} hx => by
    rw [addPath, Function.update_of_ne]
    rintro rfl
    rw [hfresh] at hx
    cases hx
  rcases addLeaf_cases hfresh hp hn with ⟨rfl, rfl⟩ | ⟨m, hm, hbc, -⟩
  · have hself : addPath paths b b.stateHash = paths b.parentHash ++ [b] := Function.update_self _ _ _
    rw [hself, hother hp]
    exact ⟨fun _ => rfl, List.getLast?_concat⟩
  · rw [hother hm, hbc]
    refine ⟨fun hne => ?_, htree.paths.last h m hm⟩
    obtain ⟨q, hq, -⟩ := (htree.rooted.parent h m hm hne).1
    rw [hother hq]
    exact htree.paths.step h m hm hne

include hr

theorem Added.tree (hadded : Added t b r p status t' pairs) : Tree t' (addPath paths b) := by
  have hsub := hadded.subtree htree.rooted hfresh hp
  refine ⟨hadded.rooted htree.rooted hfresh hp, hadded.bounded htree.rooted hfresh hp htree.bounded hr,
    ⟨fun h n hn hne => (htree.addLeaf_paths hfresh hp (hsub.some_iff.1 hn).2).1 ?_,
      fun h n hn => (htree.addLeaf_paths hfresh hp (hsub.some_iff.1 hn).2).2⟩, ?_⟩
  · -- the old root is not left by a move
    cases hadded with
    | short hshort => exact hne
    | long hlong hheir hsub hnodup hmem =>
      rintro rfl
      rcases (below_addLeaf hfresh hp htree.rooted (hheir.ne_new hfresh)).1 (hsub.some_iff.1 hn).1 with
        ⟨-, hbelow⟩ | ⟨heq, -⟩
      · exact htree.rooted.not_below_of_edge hheir.edge hbelow
      · rw [← heq, hr] at hfresh
        cases hfresh
  · cases hadded <;> exact htree.max

end Added

end Step

theorem Grown.tree {t : T F S} {paths : F → List (Breadcrumb F S)} (hgrown : Grown constants blake2 t paths) :
    Tree t paths := by
  induction hgrown with
  | create hmax h => exact .create hmax h
  | add _ h ih =>
    obtain ⟨r, p, tip, status, hr, hfresh, hp, -, -, hadded⟩ :=
      addBreadcrumbExn_cases constants blake2 ih.rooted ih.bounded h
    exact hadded.tree ih hr hfresh hp

/-! ## The view -/

section View

variable {t : T F S} {paths : F → List (Breadcrumb F S)} (htree : Tree t paths)
include htree

/-- The two sides of the paths from the last common block. -/
theorem getPathDiff_ok {x y : F} {bx b : Breadcrumb F S} (hx : At t x bx) (hy : At t y b) :
    ∃ common restX restY, getPathDiff t bx b = .ok (restX, restY) ∧ paths x = common ++ restX ∧
      paths y = common ++ restY ∧ common ≠ [] ∧ (restY.map (·.stateHash)).Disjoint (restX.map (·.stateHash)) := by
  obtain ⟨c, n, hc, hn, hancestor⟩ := commonAncestor_ok htree.rooted htree.bounded hx hy
  obtain ⟨nx, hnx, -⟩ := id hx
  obtain ⟨ny, hny, -⟩ := id hy
  obtain ⟨lx, hlx, hpathx, hmemx⟩ := pathFromTo_ok htree.rooted htree.paths hn (t.maxLength + 1) [] hx hc.left
    (Nat.lt_succ_of_le (depthBelow_le htree.rooted htree.bounded hn hnx))
  obtain ⟨ly, hly, hpathy, hmemy⟩ := pathFromTo_ok htree.rooted htree.paths hn (t.maxLength + 1) [] hy hc.right
    (Nat.lt_succ_of_le (depthBelow_le htree.rooted htree.bounded hn hny))
  rw [List.append_nil] at hlx hly
  refine ⟨paths c, lx, ly, ?_, hpathx, hpathy, fun hnil => ?_, fun z hz hz' => ?_⟩
  · rw [getPathDiff, hancestor, Exn.andThen_ok, At.find ⟨n, hn, rfl⟩, Exn.andThen_ok, hlx, Exn.andThen_ok, hly,
      Exn.andThen_ok]
  · have hlast := htree.paths.last c n hn
    rw [hnil] at hlast
    cases hlast
  · -- a block on both sides would be a lower common ancestor
    obtain ⟨d, hd, rfl⟩ := List.mem_map.1 hz
    obtain ⟨e, he, heq⟩ := List.mem_map.1 hz'
    obtain ⟨hcd, hne, hdy⟩ := hmemy d hd
    obtain ⟨-, -, hex⟩ := hmemx e he
    rw [heq] at hex
    exact hne (htree.rooted.below_antisymm hcd (hc.lowest _ hex hdy)).symm

omit [LinearOrder F] htree in
theorem prefix_append_iff {common restOld restNew : List (Breadcrumb F S)}
    (hdisjoint : (restOld.map (·.stateHash)).Disjoint (restNew.map (·.stateHash))) :
    common ++ restOld <+: common ++ restNew ↔ restOld = [] := by
  rw [List.prefix_append_right_inj]
  constructor
  · intro hpre
    cases restOld with
    | nil => rfl
    | cons d l =>
      exact (hdisjoint List.mem_cons_self (List.mem_map_of_mem (hpre.subset List.mem_cons_self))).elim
  · intro hnil
    rw [hnil]
    exact List.nil_prefix

/-- With both tips in the frontier the view describes the change. -/
theorem handleDiffs_take (commands : Breadcrumb F S → List C) {oldTip newTip : F} (hne : newTip ≠ oldTip)
    {bo bn : Breadcrumb F S} (ho : At t oldTip bo) (hn : At t newTip bn) :
    Describes commands paths oldTip newTip (handleDiffs commands t (bestPairs oldTip newTip .take)) := by
  obtain ⟨common, restNew, restOld, hdiff, hnew, hold, hcommon, hdisjoint⟩ := getPathDiff_ok htree hn ho
  have hresult : handleDiffs commands t (bestPairs oldTip newTip .take) = .ok (some {
      newCommands := restNew.flatMap commands ++ []
      removedCommands := restOld.flatMap commands ++ []
      reorgBestTip := !restOld.isEmpty }) := by
    rw [handleDiffs, bestPairs, if_pos rfl, Exn.fold, handleDiff, hn.find, Exn.andThen_ok, ho.find, Exn.andThen_ok,
      hdiff]
    rfl
  refine ⟨_, hresult, iff_of_true rfl hne, fun v hv => ?_⟩
  cases hv
  refine ⟨common, restOld, restNew, hold, hnew, hcommon, hdisjoint, List.append_nil _, List.append_nil _, ?_⟩
  rw [hold, hnew, prefix_append_iff hdisjoint]
  simp

end View

theorem handleDiffs_keep (commands : Breadcrumb F S → List C) (t : T F S) (paths : F → List (Breadcrumb F S))
    (tip newTip : F) : Describes commands paths tip tip (handleDiffs commands t (bestPairs tip newTip .keep)) :=
  ⟨none, rfl, iff_of_false (fun h => by cases h) fun h => h rfl, fun v hv => by cases hv⟩

/-- Without the old best tip nothing is answered. -/
theorem handleDiffs_raises (commands : Breadcrumb F S → List C) {t : T F S} {oldTip newTip : F}
    (hnone : t.table oldTip = none) (view : Option (BestTipView C)) :
    handleDiffs commands t (bestPairs oldTip newTip .take) ≠ .ok view := by
  intro h
  obtain ⟨r, hr, -⟩ := Exn.andThen_eq_ok.1 h
  rw [bestPairs, if_pos rfl] at hr
  obtain ⟨acc, hacc, -⟩ := Exn.fold_cons_eq_ok.1 hr
  obtain ⟨bn, -, hacc⟩ := Exn.andThen_eq_ok.1 hacc
  obtain ⟨bo, hbo, -⟩ := Exn.andThen_eq_ok.1 hacc
  obtain ⟨n, hn, -⟩ := Exn.andThen_eq_ok.1 hbo
  rw [findExn_eq_ok, hnone] at hn
  cases hn

theorem handleDiffs_added (commands : Breadcrumb F S → List C) (s : T F S) {t t' : T F S} {b : Breadcrumb F S}
    {r p : Node F S} {status : Hooks.SelectStatus} {pairs : List (Diff F S × Mutant F)}
    (hadded : Added t b r p status t' pairs) :
    handleDiffs commands s pairs = handleDiffs commands s (bestPairs t.bestTip b.stateHash status) := by
  cases hadded <;> rfl

/-- **Best tip diffs describe the best chain exactly when the old best tip is
kept.** In every run that grows from a single root, for every breadcrumb that
is added. -/
theorem bestTipDiff_iff {commands : Breadcrumb F S → List C} {t t' : T F S} {paths : F → List (Breadcrumb F S)}
    {b : Breadcrumb F S} {pairs : List (Diff F S × Mutant F)} (hgrown : Grown constants blake2 t paths)
    (hadd : addBreadcrumbExn constants blake2 t b = .ok (t', pairs)) :
    Describes commands (addPath paths b) t.bestTip t'.bestTip (handleDiffs commands t' pairs) ↔
      OldTipKept constants blake2 t b := by
  have htree := hgrown.tree
  obtain ⟨r, p, tip, status, hr, hfresh, hp, htip, hselect, hadded⟩ :=
    addBreadcrumbExn_cases constants blake2 htree.rooted htree.bounded hadd
  have htree' := hadded.tree htree hr hfresh hp
  obtain ⟨ntip, hntip, -⟩ := id htip
  have hwf : WellFormed t := ⟨htree.rooted, ⟨ntip, hntip⟩, htree.bounded⟩
  have hne := bestTip_ne hfresh hwf
  rw [handleDiffs_added commands t' hadded]
  cases status with
  | keep =>
    have hsame : t'.bestTip = t.bestTip := by cases hadded <;> rfl
    rw [hsame]
    refine iff_of_true (handleDiffs_keep commands t' _ _ _) fun r' p' tip' heir n _ _ htip' htake _ _ => ?_
    have heq : tip' = tip := Except.ok.inj (htip'.find.symm.trans htip.find)
    rw [heq, hselect] at htake
    cases htake
  | take =>
    have hbest : t'.bestTip = b.stateHash := by cases hadded <;> rfl
    have hnew : At t' b.stateHash b := hadded.new_at htree.rooted hfresh hp
    rw [hbest]
    cases hadded with
    | short hshort =>
      obtain ⟨n', hn', -⟩ := addLeaf_some hfresh hp hntip
      refine iff_of_true (handleDiffs_take htree' commands hne.symm ⟨n', hn', rfl⟩ hnew) ?_
      intro r' p' tip' heir n hr' hp' _ _ hlong _
      rw [hr] at hr'
      rw [hp] at hp'
      cases hr'
      cases hp'
      exact absurd hlong hshort
    | long hlong hheir hsub hnodup hmem =>
      have hkept := moved_some hfresh hp hwf hheir hsub (x := t.bestTip)
      constructor
      · rintro ⟨view, hview, -⟩ r' p' tip' heir' n' _ _ _ _ _ hheir'
        obtain ⟨rfl, -⟩ := Heir.unique hwf hheir hheir'
        by_contra hnot
        refine handleDiffs_raises commands ?_ view hview
        exact Option.not_isSome_iff_eq_none.1 fun hsome => (hkept.1 hsome).elim hnot hne
      · intro hold
        have hbelow := hold r p tip _ _ hr hp htip hselect hlong hheir
        obtain ⟨n', hn'⟩ := Option.isSome_iff_exists.1 (hkept.2 (.inl hbelow))
        exact handleDiffs_take htree' commands hne.symm ⟨n', hn', rfl⟩ hnew

/-! ### A fork of blocks with short slots

`A` and `B` are children of the root, and `A` is taken. The next block on `B`
is taken as well. It moves the root to `B`, and `A` goes out with the garbage.
-/

def shortA : Breadcrumb Nat Nat := forkBreadcrumb 3 1 (forkState forkRoot.consensusState 3 1)

def shortB : Breadcrumb Nat Nat := forkBreadcrumb 2 1 (forkState forkRoot.consensusState 4 1)

def shortC : Breadcrumb Nat Nat := forkBreadcrumb 4 2 (forkState shortB.consensusState 5 2)

/-- The frontier after `A` and `B`. -/
def shortFork : Exn (T Nat Nat) :=
  (create forkRoot [] 1).andThen fun t =>
    (addBreadcrumbExn forkConstants id t shortA).andThen fun r =>
      (addBreadcrumbExn forkConstants id r.1 shortB).andThen fun r => .ok r.1

def hashes (b : Breadcrumb Nat Nat) : List Nat := [b.stateHash]

/-- The first block of a run is described: the branch is not too long. -/
theorem bestTipDiff_iff_first : ∃ t t' paths pairs, Grown forkConstants id t paths ∧
    addBreadcrumbExn forkConstants id t shortA = .ok (t', pairs) ∧
      Describes hashes (addPath paths shortA) t.bestTip t'.bestTip (handleDiffs hashes t' pairs) := by
  have hcreate : create forkRoot [] 1 = .ok (forkAt 1 (single forkRoot)) := rfl
  have hgrown : Grown forkConstants id (forkAt 1 (single forkRoot)) _ := .create (le_refl 1) hcreate
  obtain ⟨⟨t', pairs⟩, hadd⟩ := Exn.exists_of_isOk
    (x := addBreadcrumbExn forkConstants id (forkAt 1 (single forkRoot)) shortA) (by decide +kernel)
  refine ⟨_, t', _, pairs, hgrown, hadd, (bestTipDiff_iff forkConstants id hgrown hadd).2 ?_⟩
  intro r p tip heir n hr hp _ _ hlong _
  cases hr
  cases hp
  exact absurd hlong (by unfold Overflows; decide)

/-- The last block of the fork makes the extension raise: it looks up the old
best tip, which its own root move has removed. -/
theorem bestTip_pruned : ∃ t t' paths pairs, Grown forkConstants id t paths ∧
    addBreadcrumbExn forkConstants id t shortC = .ok (t', pairs) ∧ handleDiffs hashes t' pairs = .error "Not_found" ∧
      ¬ Describes hashes (addPath paths shortC) t.bestTip t'.bestTip (handleDiffs hashes t' pairs) := by
  obtain ⟨t, ht⟩ := Exn.exists_of_isOk (x := shortFork) (by decide +kernel)
  obtain ⟨⟨t', pairs⟩, hadd⟩ := Exn.exists_of_isOk
    (x := shortFork.andThen fun t => addBreadcrumbExn forkConstants id t shortC) (by decide +kernel)
  have hraise : (shortFork.andThen fun t => (addBreadcrumbExn forkConstants id t shortC).andThen fun r =>
      handleDiffs hashes r.1 r.2) = .error "Not_found" := by
    decide +kernel
  rw [ht, Exn.andThen_ok] at hadd hraise
  rw [hadd, Exn.andThen_ok] at hraise
  obtain ⟨t₀, h₀, ht⟩ := Exn.andThen_eq_ok.1 ht
  obtain ⟨⟨t₁, pairs₁⟩, h₁, ht⟩ := Exn.andThen_eq_ok.1 ht
  obtain ⟨⟨t₂, pairs₂⟩, h₂, ht⟩ := Exn.andThen_eq_ok.1 ht
  cases ht
  refine ⟨_, t', _, pairs, .add (.add (.create (le_refl 1) h₀) h₁) h₂, hadd, hraise, fun ⟨view, hview, _⟩ => ?_⟩
  rw [hraise] at hview
  cases hview

end Mina.Frontier
