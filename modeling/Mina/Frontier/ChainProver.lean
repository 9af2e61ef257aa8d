/-
The provers of chains of blocks
(`transition_chain_prover/transition_chain_prover.ml`,
`best_tip_prover/best_tip_prover.ml`).

Of a transition its state hash and its protocol state are read. The
transition chain prover finds blocks in the frontier and in the root history,
the best tip prover in the frontier alone. `Transition_frontier.
global_max_length`, which is `k` of the genesis constants, and the hash of the
genesis block are parameters. What `verify` does after its checks, the
verification of the SNARKs of the root and of the best tip, is a parameter too.
-/
import Mina.Frontier.RootHistory
import Mina.MerkleList.MerkleList

namespace Mina.Frontier

open MerkleList (NonEmptyList)

/-- What is read of `Protocol_state`; `B` is `State_body_hash.t`. -/
structure Hashing (F B S : Type) where
  previousStateHash : S → F
  /-- `Body.hash` of the body. -/
  bodyHash : S → B
  /-- The state hash of `hashes_abstract ~hash_body:Fn.id`. -/
  hashesAbstract : F → B → F

def Hashing.stateHash {F B S : Type} (hashing : Hashing F B S) (state : S) : F :=
  hashing.hashesAbstract (hashing.previousStateHash state) (hashing.bodyHash state)

/-- `External_transition.Validated.t` -/
structure Validated (F S : Type) where
  stateHash : F
  protocolState : S
  deriving DecidableEq

variable {F B S : Type}

def Breadcrumb.validatedTransition (b : Breadcrumb F S) : Validated F S := ⟨b.stateHash, b.protocolState⟩

def Historical.transition (data : Historical F S) : Validated F S := ⟨data.stateHash, data.protocolState⟩

variable [LinearOrder F] (hashing : Hashing F B S)

def toProofElem (transition : Validated F S) : B := hashing.bodyHash transition.protocolState

def parentHash (transition : Validated F S) : F := hashing.previousStateHash transition.protocolState

def verifyMerkleList (init : F) (merkleList : List B) (targetHash : F) : Option (NonEmptyList F) :=
  MerkleList.verify hashing.hashesAbstract init merkleList targetHash

namespace TransitionChainProver

def findInRootHistory (history : RootHistory F S) (stateHash : F) : Option (Validated F S) :=
  (history.history.lookup stateHash).map (·.transition)

/-- `Option.merge` with the one of the frontier before the other. -/
def findTransition (t : T F S) (history : RootHistory F S) (stateHash : F) : Option (Validated F S) :=
  ((find t stateHash).map (·.validatedTransition)).or (findInRootHistory history stateHash)

def getPrevious (t : T F S) (history : RootHistory F S) (transition : Validated F S) : Option (Validated F S) :=
  findTransition t history (parentHash hashing transition)

def prove (fuel : Nat) (length : Option Int) (t : T F S) (history : RootHistory F S) (stateHash : F) :
    Exn (Option (F × List B)) :=
  match findTransition t history stateHash with
  | none => .ok none
  | some requestedTransition =>
    (MerkleList.prove (toProofElem hashing) (getPrevious hashing t history) fuel length requestedTransition).andThen
      fun r => .ok (some (r.1.stateHash, r.2))

end TransitionChainProver

namespace BestTipProver

/-- `Proof_carrying_data.t`; the root is without its validation. -/
structure ProofCarryingData (D B S : Type) where
  data : D
  merkleList : List B
  root : S

def getPrevious (t : T F S) (transition : Validated F S) : Option (Validated F S) :=
  (find t (parentHash hashing transition)).map (·.validatedTransition)

def bestTipPathLengthExn (t : T F S) : Exn Int :=
  Exn.valueExn <| (t.table t.bestTip).bind fun bestTipNode =>
    (t.table t.root).map fun rootNode => (bestTipNode.length : Int) - rootNode.length

variable (globalMaxLength : Nat) (genesisStateHash : F)

def prove (fuel : Nat) (t : T F S) : Exn (Option (ProofCarryingData (Validated F S) B S)) :=
  (findBreadcrumbExn t t.root).andThen fun root =>
    (bestTipPathLengthExn t).andThen fun bestTipPathLength =>
      if bestTipPathLength = globalMaxLength ∨ root.stateHash = genesisStateHash then
        (bestTip t).andThen fun bestTipBreadcrumb =>
          let bestVerifiedTip := bestTipBreadcrumb.validatedTransition
          (MerkleList.prove (toProofElem hashing) (getPrevious hashing t) fuel none bestVerifiedTip).andThen fun r =>
            .ok (some { data := bestVerifiedTip, merkleList := r.2, root := root.protocolState })
      else .ok none

def withHash (state : S) : Validated F S := ⟨hashing.stateHash state, state⟩

/-- `validateProofs` is `validate_proof` of the root and of the best tip. -/
def verify (validateProofs : Validated F S → Validated F S → Except String (Validated F S × Validated F S))
    (p : ProofCarryingData S B S) : Except String (Validated F S × Validated F S) :=
  let rootTransitionWithHash := withHash hashing p.root
  let bestTipWithHash := withHash hashing p.data
  if globalMaxLength = p.merkleList.length ∨ rootTransitionWithHash.stateHash = genesisStateHash then
    match verifyMerkleList hashing rootTransitionWithHash.stateHash p.merkleList bestTipWithHash.stateHash with
    | none => .error "Peer should have given a valid merkle list proof for their best tip"
    | some _ => validateProofs rootTransitionWithHash bestTipWithHash
  else
    .error s!"Peer should have given a proof of length {globalMaxLength} but got {p.merkleList.length}"

end BestTipProver

end Mina.Frontier
