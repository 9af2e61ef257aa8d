/-
The roots that the frontier has left
(`transition_frontier/extensions/root_history.ml`): twice as many as the
frontier is long, with the protocol states that their scan states require.

The states are found in the history, or in a map of the oldest root, which is
made anew when that root goes out (`dropOldest`). A root requires what its
parent requires and the parent at most, so what the roots of the history
require is in the history or is required by the oldest (`Inv.found`).

Of a historical root the hash, the protocol state and the hashes that its scan
state requires are read. A hash queue is the list of its entries from the
front.
-/
import Mina.Frontier.ProtocolStates

namespace Mina.Frontier

variable {F S : Type} [LinearOrder F]

/-- `Root_data.Historical` -/
structure Historical (F S : Type) where
  stateHash : F
  protocolState : S
  requiredStateHashes : HashSet F

def Historical.ofBreadcrumb (b : Breadcrumb F S) : Historical F S where
  stateHash := b.stateHash
  protocolState := b.protocolState
  requiredStateHashes := b.requiredStateHashes

structure RootHistory (F S : Type) where
  history : List (F × Historical F S)
  capacity : Nat
  currentRoot : Historical F S
  protocolStatesForRootScanState : F → Option S

namespace RootHistory

/-! ## Operations -/

def create (frontier : T F S) : Exn (RootHistory F S) :=
  (findBreadcrumbExn frontier frontier.root).andThen fun root =>
    .ok {
      history := []
      capacity := 2 * frontier.maxLength
      currentRoot := .ofBreadcrumb root
      protocolStatesForRootScanState := frontier.protocolStatesForRootScanState }

/-- The first part of `enqueue`: the oldest root goes out. -/
def dropOldest (t : RootHistory F S) : Exn (RootHistory F S) :=
  match t.history with
  | [] => .error "Hash_queue.dequeue_exn: empty queue"
  | (_, oldestRoot) :: history =>
    (Exn.valueExn history.head?).andThen fun newOldestRoot =>
      (protocolStatesForNextRootScanState t.protocolStatesForRootScanState newOldestRoot.2.requiredStateHashes
          oldestRoot.stateHash oldestRoot.protocolState).andThen fun states =>
        (ofAlistExn states).andThen fun newProtocolStatesMap =>
          .ok { t with history, protocolStatesForRootScanState := newProtocolStatesMap }

def enqueue (t : RootHistory F S) (newRoot : Historical F S) : Exn (RootHistory F S) :=
  (if t.history.length ≥ t.capacity then dropOldest t else .ok t).andThen fun t =>
    Exn.assert (t.currentRoot.stateHash ∉ t.history.map (·.1)) <|
      .ok { t with history := t.history ++ [(t.currentRoot.stateHash, t.currentRoot)], currentRoot := newRoot }

/-- The history after the first root move of the diffs, and whether there is
one. -/
def handleDiffs (t : RootHistory F S) (frontier : T F S) : List (Diff F S × Mutant F) → Exn (RootHistory F S × Bool)
  | [] => .ok (t, false)
  | (.rootTransitioned newRoot _ _ _, _) :: _ =>
    (findBreadcrumbExn frontier newRoot).andThen fun b =>
      (enqueue t (.ofBreadcrumb b)).andThen fun t => .ok (t, true)
  | _ :: diffs => handleDiffs t frontier diffs

def findState (t : RootHistory F S) (hash : F) : Option S :=
  match t.history.lookup hash with
  | some data => some data.protocolState
  | none => t.protocolStatesForRootScanState hash

/-- The fold over the required hashes. -/
def collect (t : RootHistory F S) (acc : List S) : List F → Option (List S)
  | [] => some acc
  | hash :: l =>
    match findState t hash with
    | none => none
    | some state => collect t (state :: acc) l

def protocolStatesForScanState (t : RootHistory F S) (stateHash : F) : Option (List S) :=
  (t.history.lookup stateHash).bind fun data => collect t [] data.requiredStateHashes.toList

/-! ## Moves -/

/-- A call of `handle_diffs`, with the new root. -/
structure Move (F S : Type) where
  frontier : T F S
  diffs : List (Diff F S × Mutant F)
  newRoot : Breadcrumb F S

def IsRootTransitioned : Diff F S → Prop
  | .rootTransitioned _ _ _ _ => True
  | _ => False

/-- The scan state of a child requires what its parent's requires and the
parent at most. -/
def Requires (parent child : Breadcrumb F S) : Prop :=
  ∀ x ∈ child.requiredStateHashes.toList, x ∈ parent.requiredStateHashes.toList ∨ x = parent.stateHash

/-- The root moves to a child of it that the frontier has, and that is the one
root move of the diffs. -/
structure Move.Valid (hashOf : S → F) (root : Breadcrumb F S) (m : Move F S) : Prop where
  diffs : ∃ before after states garbage emitted mutant, m.diffs =
    before ++ (.rootTransitioned m.newRoot.stateHash states garbage emitted, mutant) :: after ∧
    ∀ d ∈ before ++ after, ¬ IsRootTransitioned d.1
  found : At m.frontier m.newRoot.stateHash m.newRoot
  parent : m.newRoot.parentHash = root.stateHash
  requires : Requires root m.newRoot
  hash : hashOf m.newRoot.protocolState = m.newRoot.stateHash

/-- Each move is from the root that the one before it has moved to. -/
def ValidMoves (hashOf : S → F) : Breadcrumb F S → List (Move F S) → Prop
  | _, [] => True
  | root, m :: moves => m.Valid hashOf root ∧ ValidMoves hashOf m.newRoot moves

def handleMoves (t : RootHistory F S) (moves : List (Move F S)) : Exn (RootHistory F S) :=
  Exn.fold (fun t m => (handleDiffs t m.frontier m.diffs).andThen fun p => .ok p.1) t moves

/-- The last roots before the current one, as many as there is room for, and
for each the protocol states that its scan state requires. -/
structure Right (hashOf : S → F) (capacity : Nat) (previous : List (Breadcrumb F S)) (current : Breadcrumb F S)
    (t : RootHistory F S) : Prop where
  history : t.history =
    (previous.drop (previous.length - capacity)).map fun b => (b.stateHash, Historical.ofBreadcrumb b)
  currentRoot : t.currentRoot = Historical.ofBreadcrumb current
  others : current.stateHash ∉ t.history.map (·.1)
  serves : ∀ b ∈ previous.drop (previous.length - capacity), ∃ states,
    protocolStatesForScanState t b.stateHash = some states ∧
      states.map hashOf = b.requiredStateHashes.toList.reverse

end RootHistory

end Mina.Frontier
