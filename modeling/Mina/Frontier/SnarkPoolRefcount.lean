/-
The extension that counts the blocks with each work statement
(`transition_frontier/extensions/snark_pool_refcount.ml`).

The work statements of a breadcrumb's scan state are a parameter. A garbage
node is given by its hash; its scan state is that of the breadcrumb in the
frontier in which the diffs were calculated.
-/
import Mina.Frontier.WithMutants

namespace Mina.Frontier.SnarkPoolRefcount

variable {F S W : Type} [LinearOrder F] [DecidableEq W]

structure View (W : Type) where
  removed : Nat
  refcountTable : W → Option Int
  bestTipTable : Finset W

structure T (W : Type) where
  refcountTable : W → Option Int
  bestTipTable : Finset W

/-! ## The table -/

/-- One step of `add_to_table`: the table, and whether it has got a new
element. -/
def addWork (acc : (W → Option Int) × Bool) (work : W) : (W → Option Int) × Bool :=
  match acc.1 work with
  | some count => (Function.update acc.1 work (some (count + 1)), acc.2)
  | none => (Function.update acc.1 work (some 1), true)

def addToTable (table : W → Option Int) (works : List W) : (W → Option Int) × Bool :=
  works.foldl addWork (table, false)

/-- One step of `remove_from_table`: the table, and whether it has lost an
element. -/
def removeWork (acc : (W → Option Int) × Bool) (work : W) : Exn ((W → Option Int) × Bool) :=
  match acc.1 work with
  | some 1 => .ok (Function.update acc.1 work none, true)
  | some count => .ok (Function.update acc.1 work (some (count - 1)), acc.2)
  | none => .error "Removed a breadcrumb we didn't know about"

def removeFromTable (table : W → Option Int) (works : List W) : Exn ((W → Option Int) × Bool) :=
  Exn.fold removeWork (table, false) works

/-! ## The extension -/

variable (getWork : Breadcrumb F S → List W)

def create (frontier : Frontier.T F S) : Exn (T W × View W) :=
  (findBreadcrumbExn frontier frontier.root).andThen fun root =>
    let (refcountTable, _) := addToTable (fun _ => none) (getWork root)
    .ok ({ refcountTable, bestTipTable := ∅ }, { removed := 0, refcountTable, bestTipTable := ∅ })

structure DiffUpdate where
  numRemoved : Nat
  isAdded : Bool

/-- The nodes of the garbage, as the diff has them. -/
def garbageNodes (calculatedIn : Frontier.T F S) (garbage : List F) : List (Breadcrumb F S) :=
  garbage.filterMap (find calculatedIn)

/-- The removal of one garbage node. -/
def removeNode (acc : (W → Option Int) × Nat) (node : Breadcrumb F S) : Exn ((W → Option Int) × Nat) :=
  (removeFromTable acc.1 (getWork node)).andThen fun (table, changed) =>
    .ok (table, acc.2 + if changed then 1 else 0)

def updateBestTipTable (frontier : Frontier.T F S) : Nat → F → Finset W → Finset W
  | blocksRemaining, stateHash, table =>
    match find frontier stateHash with
    | none => table
    | some breadcrumb =>
      let table := table ∪ (getWork breadcrumb).toFinset
      match blocksRemaining with
      | 0 => table
      | n + 1 => updateBestTipTable frontier n breadcrumb.parentHash table

def numBlocksToInclude : Nat := 3

def handleDiff (calculatedIn frontier : Frontier.T F S) (acc : T W × DiffUpdate) :
    Diff F S × Mutant F → Exn (T W × DiffUpdate)
  | (.newNode breadcrumb, _) =>
    let (refcountTable, addedScanState) := addToTable acc.1.refcountTable (getWork breadcrumb)
    .ok ({ acc.1 with refcountTable }, { acc.2 with isAdded := acc.2.isAdded || addedScanState })
  | (.rootTransitioned _ _ garbage _, _) =>
    (Exn.fold (removeNode getWork) (acc.1.refcountTable, 0) (garbageNodes calculatedIn garbage)).andThen
      fun (refcountTable, extraNumRemoved) =>
        .ok ({ acc.1 with refcountTable }, { acc.2 with numRemoved := acc.2.numRemoved + extraNumRemoved })
  | (.bestTipChanged newBestTip, _) =>
    .ok ({ acc.1 with bestTipTable := updateBestTipTable getWork frontier numBlocksToInclude newBestTip ∅ },
      { acc.2 with isAdded := true })

/-- `handle_diffs`, on the frontier to which the diffs have been applied. -/
def handleDiffs (calculatedIn frontier : Frontier.T F S) (t : T W)
    (diffsWithMutants : List (Diff F S × Mutant F)) : Exn (T W × Option (View W)) :=
  (Exn.fold (handleDiff getWork calculatedIn frontier) (t, { numRemoved := 0, isAdded := false })
    diffsWithMutants).andThen fun (t, update) =>
      .ok (t, if update.numRemoved > 0 ∨ update.isAdded then
        some { removed := update.numRemoved, refcountTable := t.refcountTable, bestTipTable := t.bestTipTable }
      else none)

end Mina.Frontier.SnarkPoolRefcount
