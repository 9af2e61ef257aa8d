/-
The hooks of `consensus/proof_of_stake.ml` that the transition frontier
calls: chain selection (`select`), the local epoch ledger snapshots and what
moves and checks them.

Logging is left out, and so are the files and the ids of the snapshots'
databases. `D` is the type of the delegatee tables.
-/
import Mina.Consensus.ConsensusState

namespace Mina.Consensus

variable {F : Type} (constants : ConsensusConstants)

namespace Hooks

/-! ## Chain selection -/

section ShortRange

variable [DecidableEq F]

/-- The case of `is_short_range` where `c2` is in the epoch after the one of
`c1`. -/
def predCase (c1 c2 : ConsensusState F) : Exn Bool :=
  (inSeedUpdateRange constants (Length.succ c1.currSlot)).andThen fun inRange =>
    let c1NextIsFinalized := !inRange
    .ok (Length.succ c1.currEpoch = c2.currEpoch && c1NextIsFinalized &&
      c1.nextEpochData.lockCheckpoint = c2.stakingEpochData.lockCheckpoint)

def isShortRange (c1 c2 : ConsensusState F) : Exn Bool :=
  if c1.currEpoch = c2.currEpoch then
    .ok (c1.stakingEpochData.lockCheckpoint = c2.stakingEpochData.lockCheckpoint)
  else
    (predCase constants c1 c2).andThen fun b => if b then .ok true else predCase constants c2 c1

end ShortRange

section Select

inductive SelectStatus where
  | keep
  | take
deriving DecidableEq

/-- A consensus state with the hash of its block. -/
structure WithHash (F : Type) where
  hash : F
  data : ConsensusState F

def lessThanOrEqualWhen {α : Type} [Ord α] (a b : α) (condition : Bool) : Bool :=
  compare a b = .lt || (compare a b = .eq && condition)

/-- The min window density, if the chain went on to `maxSlot`. -/
def virtualMinWindowDensity (maxSlot : GlobalSlot) (s : ConsensusState F) : Length :=
  if s.currGlobalSlot.slotNumber = maxSlot.slotNumber ∧ s.currGlobalSlot.slotsPerEpoch = maxSlot.slotsPerEpoch then
    s.minWindowDensity
  else
    (MinWindowDensity.updateMinWindowDensity false constants.toConstants s.currGlobalSlot maxSlot
      s.subWindowDensities s.minWindowDensity).1

variable [LinearOrder F] (blake2 : String → String)

def candidateVrfIsBigger (existing candidate : WithHash F) : Bool :=
  lessThanOrEqualWhen (blake2 existing.data.lastVrfOutput) (blake2 candidate.data.lastVrfOutput)
    (candidate.hash > existing.hash)

def blockchainLengthIsLonger (existing candidate : WithHash F) : Bool :=
  lessThanOrEqualWhen existing.data.blockchainLength candidate.data.blockchainLength
    (candidateVrfIsBigger blake2 existing candidate)

def longForkChainQualityIsBetter (existing candidate : WithHash F) : Bool :=
  let maxSlot := GlobalSlot.max candidate.data.currGlobalSlot existing.data.currGlobalSlot
  lessThanOrEqualWhen (virtualMinWindowDensity constants maxSlot existing.data)
    (virtualMinWindowDensity constants maxSlot candidate.data) (blockchainLengthIsLonger blake2 existing candidate)

/-- `blake2` is the digest of a VRF output. -/
def select (existing candidate : WithHash F) : Exn SelectStatus :=
  (isShortRange constants existing.data candidate.data).andThen fun short =>
    let shouldTake :=
      if short then blockchainLengthIsLonger blake2 existing candidate
      else longForkChainQualityIsBetter constants blake2 existing candidate
    .ok (if shouldTake then .take else .keep)

end Select

/-! ## Epoch ledger snapshots -/

inductive LedgerSnapshot (F : Type) where
  | genesisEpochLedger (ledger : Ledger F)
  | ledgerDb (ledger : Ledger F)

namespace LedgerSnapshot

def merkleRoot : LedgerSnapshot F → F
  | .genesisEpochLedger ledger => ledger.merkleRoot
  | .ledgerDb ledger => ledger.merkleRoot

end LedgerSnapshot

structure Snapshot (F D : Type) where
  ledger : LedgerSnapshot F
  delegateeTable : D

structure LocalState (F D : Type) where
  stakingEpochSnapshot : Snapshot F D
  nextEpochSnapshot : Snapshot F D
  lastEpochDelegateeTable : Option D

variable {D : Type} (computeDelegateeTable : Ledger F → D)

/-- `Local_state.create` of a node without epoch ledgers on its disk. -/
def LocalState.create (genesisLedger : Ledger F)
    (genesisEpochData : Option (ConsensusState.GenesisEpochData F)) : LocalState F D :=
  let staking := (genesisEpochData.map (·.staking.ledger)).getD genesisLedger
  let next := (genesisEpochData.map fun data =>
    (data.next.map (·.ledger)).getD data.staking.ledger).getD genesisLedger
  { stakingEpochSnapshot := ⟨.genesisEpochLedger staking, computeDelegateeTable staking⟩
    nextEpochSnapshot := ⟨.genesisEpochLedger next, computeDelegateeTable next⟩
    lastEpochDelegateeTable := none }

inductive Source where
  | curr
  | last
deriving DecidableEq

variable [DecidableEq F]

def selectEpochSnapshot (consensusState : ConsensusState F) (localState : LocalState F D) (epoch : Length) :
    Source × Snapshot F D :=
  let inNextEpoch := epoch = Length.succ consensusState.currEpoch
  let isGenesisEpoch := epoch = 0
  let epochIsFinalized := consensusState.nextEpochData.epochLength > constants.k
  let epochIsNotFinalized := ¬ epochIsFinalized ∧ ¬ isGenesisEpoch
  if inNextEpoch ∨ epochIsNotFinalized then (.curr, localState.nextEpochSnapshot)
  else (.last, localState.stakingEpochSnapshot)

inductive SnapshotIdentifier where
  | stakingEpochSnapshot
  | nextEpochSnapshot
deriving DecidableEq

def LocalState.getSnapshot (t : LocalState F D) : SnapshotIdentifier → Snapshot F D
  | .stakingEpochSnapshot => t.stakingEpochSnapshot
  | .nextEpochSnapshot => t.nextEpochSnapshot

structure RequiredSnapshot (F : Type) where
  snapshotId : SnapshotIdentifier
  expectedRoot : F
deriving DecidableEq

inductive LocalStateSync (F : Type) where
  | one (r : RequiredSnapshot F)
  | both (next staking : F)
deriving DecidableEq

def requiredSnapshotSync (localState : LocalState F D) (snapshotId : SnapshotIdentifier) (expectedRoot : F) :
    Option (RequiredSnapshot F) :=
  if expectedRoot ≠ (localState.getSnapshot snapshotId).ledger.merkleRoot then some ⟨snapshotId, expectedRoot⟩
  else none

def requiredLocalStateSync (consensusState : ConsensusState F) (localState : LocalState F D) :
    Option (LocalStateSync F) :=
  let epoch := consensusState.currEpoch
  let source := (selectEpochSnapshot constants consensusState localState epoch).1
  match source with
  | .curr =>
    (requiredSnapshotSync localState .nextEpochSnapshot consensusState.stakingEpochData.ledger.hash).map .one
  | .last =>
    match requiredSnapshotSync localState .nextEpochSnapshot consensusState.nextEpochData.ledger.hash,
        requiredSnapshotSync localState .stakingEpochSnapshot consensusState.stakingEpochData.ledger.hash with
    | none, none => none
    | some x, none => some (.one x)
    | none, some x => some (.one x)
    | some next, some staking => some (.both next.expectedRoot staking.expectedRoot)

/-- The old staking snapshot's database is removed, the new one's is a
checkpoint of the snarked ledger. -/
def frontierRootTransition (prev next : ConsensusState F) (localState : LocalState F D) (snarkedLedger : Ledger F)
    (genesisLedgerHash : F) : LocalState F D :=
  if prev.currEpoch ≠ next.currEpoch then
    let localState := { localState with
      lastEpochDelegateeTable := some localState.stakingEpochSnapshot.delegateeTable
      stakingEpochSnapshot := localState.nextEpochSnapshot }
    if snarkedLedger.merkleRoot ≠ genesisLedgerHash then
      { localState with nextEpochSnapshot := ⟨.ledgerDb snarkedLedger, computeDelegateeTable snarkedLedger⟩ }
    else localState
  else localState

end Hooks

end Mina.Consensus
