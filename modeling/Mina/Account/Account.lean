/-
Accounts (`mina_base/account.ml`, `account_timing.ml`, `permissions.ml`,
`control.ml`, `snapp_account.ml`, `token_permissions.ml`): the record, the
authorization that each kind of change to it requires, and the minimum
balance a timed account has to keep while it vests.

Field elements `F` and verification keys `VK` are parameters: an account
only stores them and compares them for equality.
-/
import Mina.Base.Transaction

namespace Mina

universe u

/-! ## Timing -/

/-- The vesting schedule of a timed account. -/
structure Timed where
  initialMinimumBalance : Balance
  cliffTime : GlobalSlot
  cliffAmount : Amount
  vestingPeriod : GlobalSlot
  vestingIncrement : Amount
deriving DecidableEq

inductive Timing where
  | untimed
  | timed (t : Timed)
deriving DecidableEq

/-! ## Permissions -/

inductive AuthRequired where
  | none
  | either
  | proof
  | signature
  | both
  | impossible
deriving DecidableEq

/-- `Control.Tag.t`. -/
inductive ControlTag where
  | proof
  | signature
  | both
  | noneGiven
deriving DecidableEq

/-- The signatures and proofs have already been checked by this point. -/
def AuthRequired.check : AuthRequired → ControlTag → Bool
  | .impossible, _ => false
  | .none, _ => true
  | .both, .both => true
  | .both, .proof | .both, .signature => false
  | .proof, .proof | .proof, .both => true
  | .signature, .signature | .signature, .both => true
  | .either, .proof | .either, .signature | .either, .both => true
  | .signature, .proof => false
  | .proof, .signature => false
  | .both, .noneGiven | .proof, .noneGiven | .signature, .noneGiven | .either, .noneGiven => false

structure Permissions where
  stake : Bool
  editState : AuthRequired
  send : AuthRequired
  receive : AuthRequired
  setDelegate : AuthRequired
  setPermissions : AuthRequired
  setVerificationKey : AuthRequired
deriving DecidableEq

inductive TokenPermissions where
  | tokenOwned (disableNewAccounts : Bool)
  | notOwned (accountDisabled : Bool)
deriving DecidableEq

/-! ## Accounts -/

/-- The state of a snapp account has 8 field elements. -/
abbrev SnappState (F : Type u) := Vector F 8

/-- A verification key with its hash. -/
structure HashedKey (F VK : Type u) where
  data : VK
  hash : F
deriving DecidableEq

structure SnappAccount (F VK : Type u) where
  appState : SnappState F
  verificationKey : Option (HashedKey F VK)
deriving DecidableEq

/-- `Snapp_account.default`. -/
def SnappAccount.default {F VK : Type u} [Zero F] : SnappAccount F VK := ⟨.replicate 8 0, none⟩

structure Account (F VK : Type u) where
  publicKey : PublicKey
  tokenId : TokenId
  tokenPermissions : TokenPermissions
  balance : Balance
  nonce : AccountNonce
  receiptChainHash : F
  delegate : Option PublicKey
  votingFor : F
  timing : Timing
  permissions : Permissions
  snapp : Option (SnappAccount F VK)
deriving DecidableEq

/-! ## The minimum balance -/

namespace Account

/-- A quotient of 32-bit slots, so its conversion to 64 bits is exact. -/
def numPeriods (globalSlot : GlobalSlot) (t : Timed) : Amount :=
  Fin.ofNat _ ((globalSlot - t.cliffTime) / t.vestingPeriod).val

/-- A division decides whether the product would overflow; the division by
zero periods is caught and counts as no overflow. -/
def vestingDecrement (numPeriods vestingIncrement : Amount) : Amount :=
  if numPeriods ≠ 0 ∧ Fin.last _ / numPeriods < vestingIncrement then Fin.last _
  else numPeriods * vestingIncrement

def minBalanceAtSlot (globalSlot : GlobalSlot) (t : Timed) : Balance :=
  if globalSlot < t.cliffTime then t.initialMinimumBalance
  else if t.vestingPeriod = 0 then 0
  else
    match Currency.sub t.initialMinimumBalance t.cliffAmount with
    | none => 0
    | some minBalancePastCliff =>
      match Currency.sub minBalancePastCliff (vestingDecrement (numPeriods globalSlot t) t.vestingIncrement) with
      | none => 0
      | some amt => amt

/-- The difference is the machine's, which wraps around. -/
def incrementalBalanceBetweenSlots (startSlot endSlot : GlobalSlot) (t : Timed) : Amount :=
  minBalanceAtSlot startSlot t - minBalanceAtSlot endSlot t

def hasLockedTokens {F VK : Type u} (globalSlot : GlobalSlot) (account : Account F VK) : Bool :=
  match account.timing with
  | .untimed => false
  | .timed t => minBalanceAtSlot globalSlot t > 0

end Account

end Mina
