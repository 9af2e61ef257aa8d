/-
Epochs, slots and times (`consensus/constants.ml`, `epoch.ml`, and
`received_within_window` of `proof_of_stake.ml`).

A time is a number of milliseconds of 64 bits without sign; what is computed
with times goes through signed integers of 64 bits, and what is computed with
epochs and slots through unsigned ones of 32 bits. Nothing checks for overflow.
-/
import Mina.Base.Int64
import Mina.Consensus.ConsensusState

namespace Mina.Consensus

/-- `Block_time.t` and `Block_time.Span.t`. -/
abbrev Time := Fin (2 ^ 64)

/-- `Block_time.Span.to_ms`. -/
def toMs (t : Time) : Int := Int64.ofUInt64 t

/-- `Block_time.Span.of_ms`. -/
def ofMs (ms : Int) : Time := Int64.toUInt64 ms

/-! ## Constants -/

deriving instance DecidableEq for Constants, ConsensusConstants

/-- `Constants.t`, with all its fields. -/
structure ProtocolConstants extends ConsensusConstants where
  delta : Length
  epochSize : Length
  checkpointWindowSlotsPerYear : Length
  blockWindowDurationMs : Time
  slotDurationMs : Time
  epochDuration : Time
  deltaDuration : Time
  genesisStateTimestamp : Time
deriving DecidableEq

/-- `Genesis_constants.Constraint_constants.t`, as far as it is read. -/
structure ConstraintConstants where
  subWindowsPerWindow : Int
  blockWindowDurationMs : Int
  fork : Option ConsensusState.Fork

/-- `Genesis_constants.Protocol.t`. -/
structure Protocol where
  k : Int
  slotsPerEpoch : Int
  slotsPerSubWindow : Int
  delta : Int
  genesisStateTimestamp : Int

/-- `UInt32.of_int`. -/
def constant (n : Int) : Length := Int64.toUInt32 n

def Length.div (m n : Length) : Exn Length := if n = 0 then .error "Division_by_zero" else .ok (m / n)

namespace ProtocolConstants

/-- `Block_time.Span.of_ms` of an unsigned integer of 32 bits. -/
def toTimespan (n : Length) : Time := ofMs n.val

/-- `create'` over unsigned integers of 32 bits. -/
def create' (constraintConstants : ConstraintConstants) (protocol : Protocol) : Exn ProtocolConstants :=
  let blockWindowDurationMs := constant constraintConstants.blockWindowDurationMs
  let delta := constant protocol.delta
  let slotsPerSubWindow := constant protocol.slotsPerSubWindow
  let subWindowsPerWindow := constant constraintConstants.subWindowsPerWindow
  let slotsPerEpoch := constant protocol.slotsPerEpoch
  -- The minimum density is not updated for the first three days, or the first epoch.
  let nDaysMs := constant 259200000
  (Length.div nDaysMs blockWindowDurationMs).andThen fun nDays =>
    let slots := min nDays slotsPerEpoch
    .ok
      { k := constant protocol.k
        delta
        blockWindowDurationMs := toTimespan blockWindowDurationMs
        slotsPerSubWindow
        slotsPerWindow := slotsPerSubWindow * subWindowsPerWindow
        subWindowsPerWindow
        slotsPerEpoch
        gracePeriodEnd :=
          match constraintConstants.fork with
          | none => slots
          | some f => f.previousGlobalSlot + slots
        slotDurationMs := toTimespan blockWindowDurationMs
        epochSize := slotsPerEpoch
        epochDuration := toTimespan (blockWindowDurationMs * slotsPerEpoch)
        checkpointWindowSlotsPerYear := 0
        checkpointWindowSizeInSlots := 0
        deltaDuration := toTimespan (blockWindowDurationMs * (delta + 1))
        genesisStateTimestamp := ofMs protocol.genesisStateTimestamp }

def create (constraintConstants : ConstraintConstants) (protocol : Protocol) : Exn ProtocolConstants :=
  (create' constraintConstants protocol).andThen fun constants =>
    (Int64.div 31536000000 (toMs constants.slotDurationMs)).andThen fun slotsPerYear =>
      Exn.assert (slotsPerYear % 12 = 0)
        (.ok { constants with
          checkpointWindowSlotsPerYear := constant slotsPerYear
          checkpointWindowSizeInSlots := constant (slotsPerYear / 12) })

end ProtocolConstants

variable (constants : ProtocolConstants)

/-! ## Epochs and slots -/

namespace Epoch

def ofTimeExn (t : Time) : Exn Length :=
  if t < constants.genesisStateTimestamp then
    .error "Epoch.of_time: time is earlier than genesis block timestamp"
  else
    let timeSinceGenesis := t - constants.genesisStateTimestamp
    (Int64.div (toMs timeSinceGenesis) (toMs constants.epochDuration)).andThen fun n => .ok (Int64.toUInt32 n)

def startTime (epoch : Length) : Time :=
  ofMs (int64 (toMs constants.genesisStateTimestamp + int64 (epoch.val * toMs constants.epochDuration)))

def slotStartTime (epoch slot : Length) : Time :=
  startTime constants epoch + ofMs (int64 (slot.val * toMs constants.slotDurationMs))

/-- Of a pair of an epoch and a slot to another one. -/
def diffInSlots (t t' : Length × Length) : Int :=
  let epoch : Int := t.1.val
  let slot : Int := t.2.val
  let epoch' : Int := t'.1.val
  let slot' : Int := t'.2.val
  let epochSize : Int := constants.epochSize.val
  let epochDiff := int64 (epoch - epoch')
  if epochDiff > 0 then
    int64 (int64 (int64 (int64 (epochDiff - 1) * epochSize) + slot) + int64 (epochSize - slot'))
  else if epochDiff < 0 then
    int64 (int64 (int64 (int64 (epochDiff + 1) * epochSize) - int64 (epochSize - slot)) - slot')
  else int64 (slot - slot')

end Epoch

/-- `Epoch_and_slot.of_time_exn`. -/
def epochAndSlotOfTimeExn (tm : Time) : Exn (Length × Length) :=
  (Epoch.ofTimeExn constants tm).andThen fun epoch =>
    let timeSinceEpoch := tm - Epoch.startTime constants epoch
    (Int64.div (toMs timeSinceEpoch) (toMs constants.slotDurationMs)).andThen fun slot =>
      .ok (epoch, Int64.toUInt32 slot)

inductive TimeError where
  | tooEarly
  | tooLate (slots : Int)
deriving DecidableEq

/-- The time is a Unix timestamp, a signed integer of 64 bits. -/
def receivedWithinWindow (epochAndSlot : Length × Length) (timeReceived : Int) : Exn (Except TimeError Unit) :=
  (epochAndSlotOfTimeExn constants (ofMs timeReceived)).andThen fun now =>
    let slotDiff := Epoch.diffInSlots constants now epochAndSlot
    .ok <|
      if slotDiff < 0 then .error .tooEarly
      else if slotDiff ≥ (constants.delta + 1).val then .error (.tooLate (int64 (slotDiff - constants.delta.val)))
      else .ok ()

end Mina.Consensus
