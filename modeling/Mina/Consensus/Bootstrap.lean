/-
When a node bootstraps (`should_bootstrap` of `consensus/proof_of_stake.ml`).

The lengths are compared by their difference, which has no sign. A candidate
that is taken over a longer chain, by its density in a long range fork, is far
ahead after the subtraction. `shouldBootstrap_iff` says for which states that
does not happen.
-/
import Mina.Consensus.ChainSelection
import Mina.Consensus.ConsensusTime

namespace Mina.Consensus.Hooks

section Bootstrap

variable {F : Type} [LinearOrder F] (constants : ProtocolConstants) (blake2 : String → String)

def shouldBootstrapLen (existing candidate : Length) : Bool :=
  candidate - existing > constant 2 * constants.k + (constants.delta + constant 1)

def shouldBootstrap (existing candidate : WithHash F) : Exn Bool :=
  (select constants.toConsensusConstants blake2 existing candidate).andThen fun status =>
    match status with
    | .keep => .ok false
    | .take => .ok (shouldBootstrapLen constants existing.data.blockchainLength candidate.data.blockchainLength)

/-- How far ahead a chain must be: the length of the finalized part and the
network delay. -/
def bootstrapDistance : Nat := 2 * constants.k.val + constants.delta.val + 1

/-- The difference of the lengths and the distance are compared as integers:
either nothing overflows, or what overflows is not far ahead either. -/
def LengthsCompare (existing candidate : Length) : Prop :=
  if existing ≤ candidate then
    bootstrapDistance constants < 2 ^ 32 ∨ candidate.val ≤ existing.val + bootstrapDistance constants % 2 ^ 32
  else candidate.val + 2 ^ 32 ≤ existing.val + bootstrapDistance constants % 2 ^ 32

variable {constants blake2}

theorem bootstrapDistance_val :
    (constant 2 * constants.k + (constants.delta + constant 1)).val = bootstrapDistance constants % 2 ^ 32 := by
  have htwo : (constant 2).val = 2 := rfl
  have hone : (constant 1).val = 1 := rfl
  rw [Fin.val_add, Fin.val_mul, Fin.val_add, htwo, hone, bootstrapDistance]
  omega

theorem shouldBootstrapLen_iff {existing candidate : Length} :
    shouldBootstrapLen constants existing candidate = true ↔
      bootstrapDistance constants % 2 ^ 32 < (candidate - existing).val := by
  rw [shouldBootstrapLen, decide_eq_true_eq, gt_iff_lt, Fin.lt_def, bootstrapDistance_val]

/-- The comparison of the lengths is the one of integers. -/
theorem lengthsCompare_iff {existing candidate : Length} :
    (shouldBootstrapLen constants existing candidate = true ↔
      existing.val + bootstrapDistance constants < candidate.val) ↔ LengthsCompare constants existing candidate := by
  rw [shouldBootstrapLen_iff, LengthsCompare]
  have hcandidate := candidate.isLt
  split
  next hle =>
    rw [Fin.sub_val_of_le hle]
    have hle := Fin.le_def.1 hle
    generalize bootstrapDistance constants = distance
    omega
  next hlt =>
    have hlt := Fin.lt_def.1 (not_le.1 hlt)
    have hsub : (candidate - existing).val = 2 ^ 32 + candidate.val - existing.val := by
      rw [Fin.val_sub]
      omega
    rw [hsub]
    generalize bootstrapDistance constants = distance
    omega

theorem shouldBootstrap_eq_true {existing candidate : WithHash F} :
    shouldBootstrap constants blake2 existing candidate = .ok true ↔
      select constants.toConsensusConstants blake2 existing candidate = .ok .take ∧
        shouldBootstrapLen constants existing.data.blockchainLength candidate.data.blockchainLength = true := by
  rw [shouldBootstrap]
  cases select constants.toConsensusConstants blake2 existing candidate with
  | error e => simp [Exn.andThen]
  | ok status => cases status <;> simp [Exn.andThen]

/-- **A node bootstraps exactly to a chain that is taken and far ahead** if the
candidate is not taken at all, or the difference of the lengths compares with
the distance as the integers do. -/
theorem shouldBootstrap_iff (existing candidate : WithHash F) :
    (shouldBootstrap constants blake2 existing candidate = .ok true ↔
      select constants.toConsensusConstants blake2 existing candidate = .ok .take ∧
        existing.data.blockchainLength.val + bootstrapDistance constants < candidate.data.blockchainLength.val) ↔
    (select constants.toConsensusConstants blake2 existing candidate = .ok .take →
      LengthsCompare constants existing.data.blockchainLength candidate.data.blockchainLength) := by
  rw [shouldBootstrap_eq_true, and_congr_right_iff]
  exact forall_congr' fun _ => lengthsCompare_iff

end Bootstrap

namespace Sample

/-- Bootstrap at a distance of three blocks. -/
def protocolConstants : ProtocolConstants where
  toConsensusConstants := constants
  delta := 0
  epochSize := 6
  checkpointWindowSlotsPerYear := 12
  blockWindowDurationMs := 1
  slotDurationMs := 1
  epochDuration := 6
  deltaDuration := 1
  genesisStateTimestamp := 0

end Sample

/-- A fork of the long range whose chain is shorter but denser is taken, and
the node bootstraps to it. -/
theorem bootstraps_to_shorter :
    ¬ (shouldBootstrap Sample.protocolConstants id ⟨1, Sample.state 4 10 1 7⟩ ⟨2, Sample.state 4 5 2 8⟩ = .ok true ↔
      select Sample.protocolConstants.toConsensusConstants id ⟨1, Sample.state 4 10 1 7⟩ ⟨2, Sample.state 4 5 2 8⟩ =
          .ok .take ∧
        (10 : Length).val + bootstrapDistance Sample.protocolConstants < (5 : Length).val) := by
  decide +kernel

end Mina.Consensus.Hooks
