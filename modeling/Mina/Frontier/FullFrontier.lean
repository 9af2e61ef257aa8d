/-
The full transition frontier (`transition_frontier/full_frontier.ml`): a tree
of blocks in a hash table, with a root, a best tip and the protocol states
that the root's scan state needs.

A breadcrumb is given by what the frontier reads of it: of its staged ledger,
the state hashes that its scan state requires and those of the transactions
of the proof it emits. What is done to the ledgers (masks, commits, the
snarked ledger and its checkpoint) and the consensus hook of a root move are
left out.

State hashes are `F`, protocol states `S`. A protocol state is always kept
under its own hash, so a map of them gives the state alone. The recursions
over the tree have fuel: the number of its levels.
-/
import Mina.Consensus.Hooks

namespace Mina.Frontier

open Consensus

/-- `State_hash.Set`, as the list of its elements. -/
structure HashSet (F : Type) where
  toList : List F
  nodup : toList.Nodup

structure Breadcrumb (F S : Type) where
  stateHash : F
  parentHash : F
  protocolState : S
  consensusState : ConsensusState F
  /-- `Scan_state.required_state_hashes` of the staged ledger. -/
  requiredStateHashes : HashSet F
  justEmittedAProof : Bool
  /-- The hashes of `Staged_ledger.proof_txns_with_state_hashes`. -/
  proofTxnsStateHashes : Option (List F)

structure Node (F S : Type) where
  breadcrumb : Breadcrumb F S
  successorHashes : List F
  length : Nat

abbrev Table (F S : Type) := F → Option (Node F S)

structure T (F S : Type) where
  root : F
  bestTip : F
  table : Table F S
  protocolStatesForRootScanState : F → Option S
  maxLength : Nat

/-- `Diff.Full`: the new root is given by its hash and the protocol states
for its scan state, the garbage by its hashes. -/
inductive Diff (F S : Type) where
  | newNode (breadcrumb : Breadcrumb F S)
  | bestTipChanged (newBestTip : F)
  | rootTransitioned (newRoot : F) (protocolStates : List (F × S)) (garbage : List F) (justEmittedAProof : Bool)

/-- What a diff replaces. -/
inductive Mutant (F : Type) where
  | newNode
  | bestTipChanged (oldBestTip : F)
  | rootTransitioned (oldRoot : F)

variable {F S : Type} [LinearOrder F]

/-! ## Maps -/

/-- `Hashtbl.find_exn`, `State_hash.Map.find_exn`. -/
def findExn {α : Type} (m : F → Option α) (key : F) : Exn α :=
  match m key with
  | some a => .ok a
  | none => .error "Not_found"

/-- `State_hash.Map.of_alist_exn`. -/
def ofAlistExn (l : List (F × S)) : Exn (F → Option S) :=
  if (l.map (·.1)).Nodup then .ok fun h => l.lookup h else .error "Map.of_alist_exn: duplicate key"

def protocolStatesForNextRootScanState (protocolStatesForOldRoot : F → Option S)
    (newScanStateRequired : HashSet F) (oldRootHash : F) (oldRootState : S) : Exn (List (F × S)) :=
  let protocolStateMap := Function.update protocolStatesForOldRoot oldRootHash (some oldRootState)
  Exn.mapList (fun h => (findExn protocolStateMap h).andThen fun s => .ok (h, s)) newScanStateRequired.toList

/-! ## Reading -/

def find (t : T F S) (hash : F) : Option (Breadcrumb F S) := (t.table hash).map (·.breadcrumb)

def findBreadcrumbExn (t : T F S) (hash : F) : Exn (Breadcrumb F S) :=
  (findExn t.table hash).andThen fun node => .ok node.breadcrumb

def findProtocolState (t : T F S) (hash : F) : Option S :=
  match find t hash with
  | none => t.protocolStatesForRootScanState hash
  | some breadcrumb => some breadcrumb.protocolState

def bestTip (t : T F S) : Exn (Breadcrumb F S) := findBreadcrumbExn t t.bestTip

/-- `create`, without the check of the root ledger's hash. -/
def create (root : Breadcrumb F S) (protocolStates : List (F × S)) (maxLength : Nat) : Exn (T F S) :=
  (ofAlistExn protocolStates).andThen fun protocolStatesForRootScanState =>
    .ok {
      root := root.stateHash
      bestTip := root.stateHash
      table := Function.update (fun _ => none) root.stateHash
        (some { breadcrumb := root, successorHashes := [], length := 0 })
      protocolStatesForRootScanState
      maxLength }

def successors (t : T F S) (breadcrumb : Breadcrumb F S) : Exn (List (Breadcrumb F S)) :=
  (findExn t.table breadcrumb.stateHash).andThen fun node =>
    Exn.mapList (findBreadcrumbExn t) node.successorHashes

def successorsRec (t : T F S) : Nat → Breadcrumb F S → Exn (List (Breadcrumb F S))
  | 0, _ => .error "out of fuel"
  | fuel + 1, breadcrumb =>
    (successors t breadcrumb).andThen fun succs =>
      (Exn.mapList (fun succ => (successorsRec t fuel succ).andThen fun l => .ok (succ :: l)) succs).andThen
        fun ls => .ok ls.flatten

/-- `find_path` of `path_map`. -/
def findPath {α : Type} (t : T F S) (f : Breadcrumb F S → α) : Nat → Breadcrumb F S → Option Int → List α → Exn (List α)
  | 0, _, _, _ => .error "out of fuel"
  | fuel + 1, b, countOpt, acc =>
    if countOpt.any (· ≤ 0) then .ok acc
    else
      let countOpt := countOpt.map (· - 1)
      let elem := f b
      if b.stateHash = t.root then .ok acc
      else if b.parentHash = t.root then .ok (elem :: acc)
      else
        (findBreadcrumbExn t b.parentHash).andThen fun parent => findPath t f fuel parent countOpt (elem :: acc)

/-- The path of a breadcrumb that may be one level below the tree. -/
def pathMap {α : Type} (maxLength : Option Int) (t : T F S) (breadcrumb : Breadcrumb F S) (f : Breadcrumb F S → α) :
    Exn (List α) :=
  findPath t f (t.maxLength + 2) breadcrumb maxLength []

def hashPath (t : T F S) (breadcrumb : Breadcrumb F S) : Exn (List F) :=
  pathMap none t breadcrumb (·.stateHash)

/-! ## Diffs -/

/-- Given an heir, the diff that moves the root to it. -/
def calculateRootTransitionDiff (t : T F S) (heir : Breadcrumb F S) : Exn (Diff F S) :=
  (findBreadcrumbExn t t.root).andThen fun root =>
    (successors t root).andThen fun succs =>
      let heirSiblings := succs.filter fun breadcrumb => heir.stateHash ≠ breadcrumb.stateHash
      (Exn.mapList (fun sibling => (successorsRec t (t.maxLength + 1) sibling).andThen fun l => .ok (sibling :: l))
          heirSiblings).andThen fun ls =>
        let garbageBreadcrumbs := ls.flatten.reverse
        (protocolStatesForNextRootScanState t.protocolStatesForRootScanState heir.requiredStateHashes root.stateHash
            root.protocolState).andThen fun protocolStates =>
          .ok (.rootTransitioned heir.stateHash protocolStates (garbageBreadcrumbs.map (·.stateHash))
            heir.justEmittedAProof)

/-- The garbage goes out one by one. -/
def removeGarbage (t : T F S) (garbage : List F) : Exn (T F S) :=
  Exn.fold (fun t hash =>
    (findBreadcrumbExn t hash).andThen fun _ => .ok { t with table := Function.update t.table hash none }) t garbage

/-- The protocol states of the transactions that the new root's proof
proves; they are looked up after the old root is gone. -/
def findTxnStates (t : T F S) (newRoot : Breadcrumb F S) : Exn (List S) :=
  if newRoot.justEmittedAProof then
    (Exn.valueExn newRoot.proofTxnsStateHashes).andThen fun hashes =>
      Exn.mapList (fun h => Exn.valueExn (findProtocolState t h)) hashes
  else .ok []

def moveRoot (t : T F S) (newRootHash : F) (newRootProtocolStates : List (F × S)) (garbage : List F) : Exn (T F S) :=
  (findExn t.table t.root).andThen fun _ =>
    (findExn t.table newRootHash).andThen fun newRootNode =>
      (removeGarbage t garbage).andThen fun t =>
        let t := { t with table := Function.update t.table t.root none }
        (findTxnStates t newRootNode.breadcrumb).andThen fun _ =>
          (ofAlistExn newRootProtocolStates).andThen fun newProtocolStatesMap =>
            .ok { t with
              protocolStatesForRootScanState := newProtocolStatesMap
              table := Function.update t.table newRootHash (some newRootNode)
              root := newRootHash }

variable (constants : ConsensusConstants) (blake2 : String → String)

def consensusStateWithHashes (breadcrumb : Breadcrumb F S) : Hooks.WithHash F :=
  { hash := breadcrumb.stateHash, data := breadcrumb.consensusState }

/-- `List.hd_exn`. -/
def hdExn {α : Type} : List α → Exn α
  | [] => .error "hd"
  | a :: _ => .ok a

/-- The diff that moves the root, if the new breadcrumb extends the frontier
to longer than `max_length`. -/
def rootTransition (t : T F S) (breadcrumb : Breadcrumb F S) (parentNode rootNode : Node F S) :
    Exn (List (Diff F S)) :=
  if (parentNode.length : Int) + 1 - rootNode.length > t.maxLength then
    (hashPath t breadcrumb).andThen fun path =>
      (hdExn path).andThen fun heirHash =>
        (findBreadcrumbExn t heirHash).andThen fun heir =>
          (calculateRootTransitionDiff t heir).andThen fun diff => .ok [diff]
  else .ok []

/-- The diffs which need to be applied in order to add a breadcrumb. -/
def calculateDiffs (t : T F S) (breadcrumb : Breadcrumb F S) : Exn (List (Diff F S)) :=
  (findExn t.table breadcrumb.parentHash).andThen fun parentNode =>
    (findExn t.table t.root).andThen fun rootNode =>
      (bestTip t).andThen fun currentBestTip =>
        (rootTransition t breadcrumb parentNode rootNode).andThen fun transition =>
          (Hooks.select constants blake2 (consensusStateWithHashes currentBestTip)
              (consensusStateWithHashes breadcrumb)).andThen fun status =>
            let best := if status = .take then [Diff.bestTipChanged breadcrumb.stateHash] else []
            .ok ([.newNode breadcrumb] ++ transition ++ best)

/-- `Hashtbl.add_exn`. -/
def addExn (table : Table F S) (key : F) (node : Node F S) : Exn (Table F S) :=
  match table key with
  | some _ => .error "Hashtbl.add_exn got key already present"
  | none => .ok (Function.update table key (some node))

def applyDiff (t : T F S) : Diff F S → Exn (T F S × Mutant F × Option F)
  | .newNode breadcrumb =>
    (findExn t.table breadcrumb.parentHash).andThen fun parentNode =>
      (addExn t.table breadcrumb.stateHash
          { breadcrumb, successorHashes := [], length := parentNode.length + 1 }).andThen fun table =>
        let parentNode := { parentNode with successorHashes := breadcrumb.stateHash :: parentNode.successorHashes }
        .ok ({ t with table := Function.update table breadcrumb.parentHash (some parentNode) }, .newNode, none)
  | .bestTipChanged newBestTip => .ok ({ t with bestTip := newBestTip }, .bestTipChanged t.bestTip, none)
  | .rootTransitioned newRoot protocolStates garbage _ =>
    (moveRoot t newRoot protocolStates garbage).andThen fun t' => .ok (t', .rootTransitioned t.root, some newRoot)

/-- The diffs in order. -/
def applyDiffs (t : T F S) (diffs : List (Diff F S)) : Exn (T F S) :=
  Exn.fold (fun t diff => (applyDiff t diff).andThen fun r => .ok r.1) t diffs

/-- A breadcrumb is added: its diffs are calculated and applied. -/
def addBreadcrumb (t : T F S) (breadcrumb : Breadcrumb F S) : Exn (T F S) :=
  (calculateDiffs constants blake2 t breadcrumb).andThen fun diffs => applyDiffs t diffs

end Mina.Frontier
