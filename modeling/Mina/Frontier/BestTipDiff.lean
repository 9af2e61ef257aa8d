/-
The extension that tells how the best chain changed
(`transition_frontier/extensions/best_tip_diff.ml`), and `common_ancestor` of
the full frontier on which it rests.

The commands of a breadcrumb are a parameter, and what is logged is left out.
The walks up the tree have fuel: the number of its levels.
-/
import Mina.Frontier.WithMutants

namespace Mina.Frontier

variable {F S : Type} [LinearOrder F]

/-! ## Common ancestors -/

def parentUnlessRoot (t : T F S) (breadcrumb : Breadcrumb F S) : Exn (Breadcrumb F S) :=
  if breadcrumb.stateHash = t.root then .ok breadcrumb else findBreadcrumbExn t breadcrumb.parentHash

/-- `go` of `common_ancestor`. -/
def searchAncestor (t : T F S) : Nat → List F → List F → Breadcrumb F S → Breadcrumb F S → Exn F
  | 0, _, _, _, _ => .error "out of fuel"
  | fuel + 1, ancestors1, ancestors2, b1, b2 =>
    let sh1 := b1.stateHash
    let sh2 := b2.stateHash
    let ancestors1 := sh1 :: ancestors1
    let ancestors2 := sh2 :: ancestors2
    if ancestors1.contains sh2 then .ok sh2
    else if ancestors2.contains sh1 then .ok sh1
    else
      (parentUnlessRoot t b1).andThen fun p1 =>
        (parentUnlessRoot t b2).andThen fun p2 => searchAncestor t fuel ancestors1 ancestors2 p1 p2

def commonAncestor (t : T F S) (bc1 bc2 : Breadcrumb F S) : Exn F :=
  searchAncestor t (t.maxLength + 1) [] [] bc1 bc2

/-! ## The extension -/

/-- `go` of `path_from_to`. -/
def pathFromTo (t : T F S) (t1 : Breadcrumb F S) : Nat → Breadcrumb F S → List (Breadcrumb F S) →
    Exn (List (Breadcrumb F S))
  | 0, _, _ => .error "out of fuel"
  | fuel + 1, cursor, acc =>
    if cursor.stateHash = t1.stateHash then .ok acc
    else (findBreadcrumbExn t cursor.parentHash).andThen fun parent => pathFromTo t t1 fuel parent (cursor :: acc)

/-- The breadcrumbs on the first one's path but not on the second one's, and
the other way round, the oldest first. -/
def getPathDiff (t : T F S) (bc1 bc2 : Breadcrumb F S) : Exn (List (Breadcrumb F S) × List (Breadcrumb F S)) :=
  (commonAncestor t bc1 bc2).andThen fun ancestor =>
    (findBreadcrumbExn t ancestor).andThen fun t1 =>
      (pathFromTo t t1 (t.maxLength + 1) bc1 []).andThen fun path1 =>
        (pathFromTo t t1 (t.maxLength + 1) bc2 []).andThen fun path2 => .ok (path1, path2)

/-- `Best_tip_diff.view`. -/
structure BestTipView (C : Type) where
  newCommands : List C
  removedCommands : List C
  reorgBestTip : Bool
  deriving DecidableEq

variable {C : Type} (commands : Breadcrumb F S → List C)

def handleDiff (t : T F S) (acc : BestTipView C × Bool) : Diff F S × Mutant F → Exn (BestTipView C × Bool)
  | (.bestTipChanged newBestTip, .bestTipChanged oldBestTipHash) =>
    (findBreadcrumbExn t newBestTip).andThen fun newBestTipBreadcrumb =>
      (findBreadcrumbExn t oldBestTipHash).andThen fun oldBestTip =>
        (getPathDiff t newBestTipBreadcrumb oldBestTip).andThen fun (addedToBestTipPath, removedFromBestTipPath) =>
          .ok ({
            newCommands := addedToBestTipPath.flatMap commands ++ acc.1.newCommands
            removedCommands := removedFromBestTipPath.flatMap commands ++ acc.1.removedCommands
            reorgBestTip := !removedFromBestTipPath.isEmpty }, true)
  | _ => .ok acc

/-- `handle_diffs`, on the frontier to which the diffs have been applied. -/
def handleDiffs (t : T F S) (diffsWithMutants : List (Diff F S × Mutant F)) : Exn (Option (BestTipView C)) :=
  (Exn.fold (handleDiff commands t) ({ newCommands := [], removedCommands := [], reorgBestTip := false }, false)
    diffsWithMutants).andThen fun (view, shouldBroadcast) => .ok (if shouldBroadcast then some view else none)

end Mina.Frontier
