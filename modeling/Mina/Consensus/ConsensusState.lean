/-
The consensus state of a block and how it follows from the one before it
(`Epoch_data` and `Consensus_state` of `consensus/proof_of_stake.ml`).

Hashes, seeds and VRF results are field elements `F`; what is computed with
the random oracle or the VRF is a parameter (`Vrf`). A ledger is given by what
is read of it, its Merkle root and its total currency.
-/
import Mina.Base.Exn
import Mina.Base.UserCommand
import Mina.Consensus.MinWindowDensity

namespace Mina.Consensus

/-- The constants, with those that only the functions on whole consensus
states read. -/
structure ConsensusConstants extends Constants where
  k : Length
  slotsPerWindow : Length
  checkpointWindowSizeInSlots : Length

structure Vrf (F : Type) where
  /-- `State_hash.(of_hash zero)` -/
  zero : F
  /-- `Epoch_seed.initial` -/
  initialSeed : F
  /-- `Epoch_seed.update` -/
  epochSeed : F → F → F
  truncate : F → String
  dummyOutput : String
  /-- The evaluation with the key of the genesis winner, as delegator 0. -/
  genesisEval : Length → F → F
  genesisWinner : PublicKey

structure Ledger (F : Type) where
  merkleRoot : F
  totalCurrency : Amount

structure EpochLedger (F : Type) where
  hash : F
  totalCurrency : Amount

structure EpochData (F : Type) where
  ledger : EpochLedger F
  seed : F
  startCheckpoint : F
  lockCheckpoint : F
  epochLength : Length

structure ConsensusState (F : Type) where
  blockchainLength : Length
  epochCount : Length
  minWindowDensity : Length
  subWindowDensities : List Length
  lastVrfOutput : String
  totalCurrency : Amount
  currGlobalSlot : GlobalSlot
  globalSlotSinceGenesis : Length
  stakingEpochData : EpochData F
  nextEpochData : EpochData F
  hasAncestorInSameCheckpointWindow : Bool
  blockStakeWinner : PublicKey
  blockCreator : PublicKey
  coinbaseReceiver : PublicKey
  superchargeCoinbase : Bool

namespace GlobalSlot

def create (constants : ConsensusConstants) (epoch slot : Length) : GlobalSlot :=
  { slotNumber := slot + constants.slotsPerEpoch * epoch, slotsPerEpoch := constants.slotsPerEpoch }

def zero (constants : ConsensusConstants) : GlobalSlot :=
  { slotNumber := 0, slotsPerEpoch := constants.slotsPerEpoch }

def ofSlotNumber (constants : ConsensusConstants) (slotNumber : Length) : GlobalSlot :=
  { slotNumber, slotsPerEpoch := constants.slotsPerEpoch }

def lt (t t' : GlobalSlot) : Bool := t.slotNumber < t'.slotNumber

def sub (t t' : GlobalSlot) : Option Length :=
  if t.slotNumber < t'.slotNumber then none else some (t.slotNumber - t'.slotNumber)

def max (t1 t2 : GlobalSlot) : GlobalSlot := if t1.lt t2 then t2 else t1

end GlobalSlot

/-- `Slot.in_seed_update_range`: the first two thirds of an epoch. -/
def inSeedUpdateRange (constants : ConsensusConstants) (slot : Length) : Exn Bool :=
  let thirdEpoch := constants.slotsPerEpoch / 3
  Exn.assert (constants.slotsPerEpoch = 3 * thirdEpoch) (.ok (slot < thirdEpoch * 2))

variable {F : Type} [DecidableEq F] (V : Vrf F) (constants : ConsensusConstants)

/-! ## Epoch data -/

namespace EpochData

def genesis (ledger : Ledger F) (seed : F) : EpochData F :=
  { ledger := { hash := ledger.merkleRoot, totalCurrency := ledger.totalCurrency }
    seed
    startCheckpoint := V.zero
    lockCheckpoint := V.zero
    epochLength := 1 }

/-- If the snarked ledger is still the genesis ledger the epoch ledger stays
as it is: the epoch ledgers at genesis can be different from the genesis
ledger. -/
def nextStakingLedger (nextData : EpochData F) (snarkedLedgerHash genesisLedgerHash : F) (totalCurrency : Amount) :
    EpochLedger F :=
  if snarkedLedgerHash = genesisLedgerHash then nextData.ledger else { hash := snarkedLedgerHash, totalCurrency }

/-- The data before the seed is updated. -/
def rotate (stakingData nextData : EpochData F) (epochCount prevEpoch nextEpoch : Length)
    (prevProtocolStateHash snarkedLedgerHash genesisLedgerHash : F) (totalCurrency : Amount) :
    Exn (EpochData F × EpochData F × Length) :=
  if nextEpoch > prevEpoch then
    .ok (nextData,
      { seed := nextData.seed
        ledger := nextStakingLedger nextData snarkedLedgerHash genesisLedgerHash totalCurrency
        startCheckpoint := prevProtocolStateHash
        lockCheckpoint := V.zero
        epochLength := 1 },
      Length.succ epochCount)
  else
    Exn.assert (nextEpoch = prevEpoch)
      (.ok (stakingData, { nextData with epochLength := Length.succ nextData.epochLength }, epochCount))

def updatePair (stakingData nextData : EpochData F) (epochCount prevEpoch nextEpoch nextSlot : Length)
    (prevProtocolStateHash producerVrfResult snarkedLedgerHash genesisLedgerHash : F) (totalCurrency : Amount) :
    Exn (EpochData F × EpochData F × Length) :=
  (rotate V stakingData nextData epochCount prevEpoch nextEpoch prevProtocolStateHash snarkedLedgerHash
      genesisLedgerHash totalCurrency).andThen fun r =>
    (inSeedUpdateRange constants nextSlot).andThen fun inRange =>
      let currSeed := if inRange then V.epochSeed r.2.1.seed producerVrfResult else r.2.1.seed
      let currLockCheckpoint := if inRange then prevProtocolStateHash else r.2.1.lockCheckpoint
      .ok (r.1, { r.2.1 with seed := currSeed, lockCheckpoint := currLockCheckpoint }, r.2.2)

end EpochData

/-! ## Consensus states -/

namespace ConsensusState

def currEpoch (t : ConsensusState F) : Length := t.currGlobalSlot.epoch

def currSlot (t : ConsensusState F) : Length := t.currGlobalSlot.slot

def checkpointWindow (slot : GlobalSlot) : Length := slot.slotNumber / constants.checkpointWindowSizeInSlots

/-- `same_checkpoint_window_unchecked`. -/
def sameCheckpointWindow (slot1 slot2 : GlobalSlot) : Bool :=
  checkpointWindow constants slot1 = checkpointWindow constants slot2

/-- What a block brings to the update of the consensus state. -/
structure Block (F : Type) where
  consensusTransition : Length
  previousProtocolStateHash : F
  supplyIncrease : Amount
  snarkedLedgerHash : F
  genesisLedgerHash : F
  producerVrfResult : F
  blockStakeWinner : PublicKey
  blockCreator : PublicKey
  coinbaseReceiver : PublicKey
  superchargeCoinbase : Bool

def update (prev : ConsensusState F) (b : Block F) : Exn (ConsensusState F) :=
  let prevEpoch := prev.currGlobalSlot.epoch
  let prevSlot := prev.currGlobalSlot.slot
  let nextGlobalSlot := GlobalSlot.ofSlotNumber constants b.consensusTransition
  let nextEpoch := nextGlobalSlot.epoch
  let nextSlot := nextGlobalSlot.slot
  match nextGlobalSlot.sub prev.currGlobalSlot with
  | none => .error "Next global slot smaller than current global slot"
  | some slotDiff =>
    match Currency.add prev.totalCurrency b.supplyIncrease with
    | none => .error "Failed to add total_currency"
    | some totalCurrency =>
      if b.consensusTransition = 0 ∨ prev.currGlobalSlot.lt nextGlobalSlot then
        (EpochData.updatePair V constants prev.stakingEpochData prev.nextEpochData prev.epochCount prevEpoch nextEpoch
            nextSlot b.previousProtocolStateHash b.producerVrfResult b.snarkedLedgerHash b.genesisLedgerHash
            totalCurrency).andThen fun r =>
          let density := MinWindowDensity.updateMinWindowDensity true constants.toConstants prev.currGlobalSlot
            nextGlobalSlot prev.subWindowDensities prev.minWindowDensity
          .ok {
            blockchainLength := Length.succ prev.blockchainLength
            epochCount := r.2.2
            minWindowDensity := density.1
            subWindowDensities := density.2
            lastVrfOutput := V.truncate b.producerVrfResult
            totalCurrency
            currGlobalSlot := nextGlobalSlot
            globalSlotSinceGenesis := prev.globalSlotSinceGenesis + slotDiff
            stakingEpochData := r.1
            nextEpochData := r.2.1
            hasAncestorInSameCheckpointWindow :=
              sameCheckpointWindow constants (GlobalSlot.create constants prevEpoch prevSlot)
                (GlobalSlot.create constants nextEpoch nextSlot)
            blockStakeWinner := b.blockStakeWinner
            blockCreator := b.blockCreator
            coinbaseReceiver := b.coinbaseReceiver
            superchargeCoinbase := b.superchargeCoinbase }
      else .error "(epoch, slot) did not increase"

/-! ## Genesis -/

/-- `Genesis_epoch_data.Data`. -/
structure GenesisData (F : Type) where
  ledger : Ledger F
  seed : F

structure GenesisEpochData (F : Type) where
  staking : GenesisData F
  next : Option (GenesisData F)

/-- `Constraint_constants.fork`. -/
structure Fork where
  previousLength : Length
  previousGlobalSlot : Length

variable (genesisLedger : Ledger F) (genesisEpochData : Option (GenesisEpochData F)) (fork : Option Fork)

def genesisStaking : GenesisData F :=
  (genesisEpochData.map (·.staking)).getD { ledger := genesisLedger, seed := V.initialSeed }

def genesisNext : GenesisData F :=
  (genesisEpochData.map fun data => data.next.getD data.staking).getD
    { ledger := genesisLedger, seed := V.initialSeed }

def negativeOne : ConsensusState F :=
  let staking := genesisStaking V genesisLedger genesisEpochData
  let next := genesisNext V genesisLedger genesisEpochData
  { blockchainLength := (fork.map (·.previousLength)).getD 0
    epochCount := 0
    minWindowDensity := constants.slotsPerWindow
    subWindowDensities := 0 :: List.replicate (constants.subWindowsPerWindow.val - 1) constants.slotsPerSubWindow
    lastVrfOutput := V.dummyOutput
    totalCurrency := genesisLedger.totalCurrency
    currGlobalSlot := GlobalSlot.zero constants
    globalSlotSinceGenesis := (fork.map (·.previousGlobalSlot)).getD 0
    stakingEpochData := EpochData.genesis V staking.ledger staking.seed
    nextEpochData := EpochData.genesis V next.ledger next.seed
    hasAncestorInSameCheckpointWindow := false
    blockStakeWinner := V.genesisWinner
    blockCreator := V.genesisWinner
    coinbaseReceiver := V.genesisWinner
    superchargeCoinbase := true }

def createGenesis (negativeOneProtocolStateHash : F) : Exn (ConsensusState F) :=
  update V constants (negativeOne V constants genesisLedger genesisEpochData fork)
    { consensusTransition := 0
      previousProtocolStateHash := negativeOneProtocolStateHash
      supplyIncrease := 0
      snarkedLedgerHash := genesisLedger.merkleRoot
      genesisLedgerHash := genesisLedger.merkleRoot
      producerVrfResult := V.genesisEval 0 ((genesisEpochData.map (·.staking.seed)).getD V.initialSeed)
      blockStakeWinner := V.genesisWinner
      blockCreator := V.genesisWinner
      coinbaseReceiver := V.genesisWinner
      superchargeCoinbase := true }

end ConsensusState

end Mina.Consensus
