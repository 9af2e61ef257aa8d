/-
The application of a transaction to a ledger and its undoing
(`mina_base/transaction_logic.ml`, with `transaction_status.ml`): signed
commands, fee transfers and coinbases. Snapp commands are left out; the
update that one party of them makes is in `Account.ApplyBody`.

The signer of a command is its compressed key already.
-/
import Mina.Account.Initialize
import Mina.TransactionLogic.LedgerIntf

namespace Mina.TransactionLogic

/-! ## The status of a transaction -/

structure AuxiliaryData where
  feePayerAccountCreationFeePaid : Option Amount
  receiverAccountCreationFeePaid : Option Amount
  createdToken : Option TokenId
deriving DecidableEq

def AuxiliaryData.empty : AuxiliaryData := ⟨none, none, none⟩

structure BalanceData where
  feePayerBalance : Option Balance
  sourceBalance : Option Balance
  receiverBalance : Option Balance
deriving DecidableEq

def BalanceData.empty : BalanceData := ⟨none, none, none⟩

inductive TransactionStatus where
  | applied (auxiliaryData : AuxiliaryData) (balanceData : BalanceData)
  | failed (failure : Failure) (balanceData : BalanceData)
deriving DecidableEq

structure FeeTransferBalanceData where
  receiver1Balance : Balance
  receiver2Balance : Option Balance
deriving DecidableEq

def FeeTransferBalanceData.toBalanceData (b : FeeTransferBalanceData) : BalanceData :=
  ⟨some b.receiver1Balance, none, b.receiver2Balance⟩

structure CoinbaseBalanceData where
  coinbaseReceiverBalance : Balance
  feeTransferReceiverBalance : Option Balance
deriving DecidableEq

def CoinbaseBalanceData.toBalanceData (b : CoinbaseBalanceData) : BalanceData :=
  ⟨some b.coinbaseReceiverBalance, none, b.feeTransferReceiverBalance⟩

/-! ## `Transaction_applied` -/

/-- `Transaction.t` without the snapp commands. -/
inductive Txn where
  | command (c : SignedCommand)
  | feeTransfer (t : FeeTransfer)
  | coinbase (c : Coinbase)
deriving DecidableEq

/-- `Signed_command_applied.Common`. -/
structure Common (F : Type) where
  userCommand : WithStatus TransactionStatus SignedCommand
  previousReceiptChainHash : F
  feePayerTiming : Timing
  sourceTiming : Option Timing
deriving DecidableEq

/-- `Signed_command_applied.Body`. -/
inductive AppliedBody where
  | payment (previousEmptyAccounts : List AccountId)
  | stakeDelegation (previousDelegate : Option PublicKey)
  | createNewToken (createdToken : TokenId)
  | createTokenAccount
  | mintTokens
  | failed
deriving DecidableEq

structure SignedCommandApplied (F : Type) where
  common : Common F
  body : AppliedBody
deriving DecidableEq

structure FeeTransferApplied where
  feeTransfer : FeeTransfer
  previousEmptyAccounts : List AccountId
  receiverTiming : Timing
  balances : FeeTransferBalanceData
deriving DecidableEq

structure CoinbaseApplied where
  coinbase : Coinbase
  previousEmptyAccounts : List AccountId
  receiverTiming : Timing
  balances : CoinbaseBalanceData
deriving DecidableEq

inductive Varying (F : Type) where
  | command (u : SignedCommandApplied F)
  | feeTransfer (u : FeeTransferApplied)
  | coinbase (u : CoinbaseApplied)
deriving DecidableEq

structure TransactionApplied (F Hash : Type) where
  previousHash : Hash
  varying : Varying F
deriving DecidableEq

namespace TransactionApplied

variable {F Hash : Type}

def transaction (t : TransactionApplied F Hash) : WithStatus TransactionStatus Txn :=
  match t.varying with
  | .command uc => ⟨.command uc.common.userCommand.data, uc.common.userCommand.status⟩
  | .feeTransfer f => ⟨.feeTransfer f.feeTransfer, .applied .empty f.balances.toBalanceData⟩
  | .coinbase c => ⟨.coinbase c.coinbase, .applied .empty c.balances.toBalanceData⟩

def userCommandStatus (t : TransactionApplied F Hash) : TransactionStatus :=
  match t.varying with
  | .command uc => uc.common.userCommand.status
  | .feeTransfer f => .applied .empty f.balances.toBalanceData
  | .coinbase c => .applied .empty c.balances.toBalanceData

end TransactionApplied

/-! ## Reading and writing accounts -/

variable {L F VK Hash : Type} [ChainHashes F] [LedgerIntf L F VK Hash]

open LedgerIntf LedgerM

def error {α : Type} (s : String) : Except TransactionError α := .error (.applyTransaction s)

def errorOpt {α : Type} (e : String) : Option α → Except TransactionError α
  | some x => .ok x
  | none => error e

def valueExn {α : Type} : Option α → Except TransactionError α
  | some x => .ok x
  | none => .error (.raised "Option.value_exn None")

/-- Where an account is, or that it is not there yet. -/
inductive Located where
  | existing (location : Location)
  | new
deriving DecidableEq

def getWithLocation (ledger : L) (accountId : AccountId) : Located × Account F VK :=
  match locationOfAccount ledger accountId with
  | some location =>
    match get ledger location with
    | some account => (.existing location, account)
    | none => (.new, Account.create accountId 0)
  | none => (.new, Account.create accountId 0)

def setWithLocation (location : Located) (account : Account F VK) : LedgerM L Unit :=
  match location with
  | .existing location => set location account
  | .new => do
    let _ ← getOrCreateAccount account.identifier account
    pure ()

def get' (ledger : L) (tag : String) (location : Location) : Except TransactionError (Account F VK) :=
  errorOpt (tag ++ " account not found") (get ledger location)

def locationOfAccount' (ledger : L) (tag : String) (key : AccountId) : Except TransactionError Location :=
  errorOpt (tag ++ " location not found") (locationOfAccount ledger key)

/-- An account that has to be there, with its location. -/
def locate (ledger : L) (tag : String) (accountId : AccountId) :
    Except TransactionError (Location × Account F VK) := do
  let location ← locationOfAccount' ledger tag accountId
  let account ← get' ledger tag location
  return (location, account)

def addAmount (balance : Balance) (amount : Amount) : Except TransactionError Balance :=
  errorOpt "overflow" (Currency.add balance amount)

def subAmount (balance : Balance) (amount : Amount) : Except TransactionError Balance :=
  errorOpt "insufficient funds" (Currency.sub balance amount)

def subAccountCreationFee (accountCreationFee : Fee) (action : AccountState) (amount : Amount) :
    Except TransactionError Amount :=
  if action = .added then
    match Currency.sub amount accountCreationFee with
    | some amount => .ok amount
    | none => .error (.accountCreationFee accountCreationFee amount)
  else .ok amount

def check (b : Bool) (e : TransactionError) : Except TransactionError Unit := if b then .ok () else .error e

def validateNonces (txnNonce accountNonce : AccountNonce) : Except TransactionError Unit :=
  check (accountNonce = txnNonce) (.nonce accountNonce txnNonce)

def validateTime (validUntil currentGlobalSlot : GlobalSlot) : Except TransactionError Unit :=
  check (currentGlobalSlot ≤ validUntil) (.expired currentGlobalSlot validUntil)

def previousEmptyAccounts (action : AccountState) (pk : AccountId) : List AccountId :=
  if action = .added then [pk] else []

def hasLockedTokens (globalSlot : GlobalSlot) (accountId : AccountId) (ledger : L) : Bool :=
  (getWithLocation ledger accountId).2.hasLockedTokens globalSlot

def getUserAccountWithLocation (ledger : L) (accountId : AccountId) :
    Except TransactionError (Located × Account F VK) := do
  let r := getWithLocation ledger accountId
  check r.2.snapp.isNone (.snappAccount accountId)
  return r

def incrBalance (acct : Account F VK) (amt : Amount) : Except Failure (Account F VK) :=
  match addAmount acct.balance amt with
  | .ok balance => .ok { acct with balance }
  | .error _ => .error .overflow

/-- The balance of an account that exists and is a user's. -/
def computeBalance (ledger : L) (accountId : AccountId) : Option Balance :=
  match getUserAccountWithLocation ledger accountId with
  | .ok (.existing _, account) => some account.balance
  | _ => none

/-- `validate_timing`, whose error is one of the transaction. -/
def validateTimingErr (account : Account F VK) (txnAmount : Amount) (txnGlobalSlot : GlobalSlot) :
    Except TransactionError Timing :=
  (validateTiming account txnAmount txnGlobalSlot).mapError .timing

/-- `validate_timing`, whose error is a failure of the command. -/
def validateTimingFailure (account : Account F VK) (txnAmount : Amount) (txnGlobalSlot : GlobalSlot) :
    Except Failure Timing :=
  (validateTiming account txnAmount txnGlobalSlot).mapError timingErrorToUserCommandStatus

/-! ## The fee of a command -/

/-- The fee payer's account before and after. -/
def payFee' (command : SignedCommandPayload) (nonce : AccountNonce) (feePayer : AccountId) (fee : Fee)
    (ledger : L) (currentGlobalSlot : GlobalSlot) :
    Except TransactionError (Located × Account F VK × Account F VK) := do
  let (location, account) ← getUserAccountWithLocation ledger feePayer
  check (location ≠ .new) .feePayerNew
  let balance ← subAmount account.balance fee
  validateNonces nonce account.nonce
  let timing ← validateTimingErr account fee currentGlobalSlot
  return (location, account, { account with
    balance
    nonce := account.nonce.succ
    receiptChainHash := ChainHashes.receiptChainCons command account.receiptChainHash
    timing })

def payFee (userCommand : SignedCommand) (signerPk : PublicKey) (ledger : L) (currentGlobalSlot : GlobalSlot) :
    Except TransactionError (Located × Account F VK × Common F) := do
  check (userCommand.feePayer.publicKey = signerPk) .feePayerSigner
  check (userCommand.feeToken = TokenId.default) .feeToken
  let (loc, account, account') ← payFee' userCommand.payload userCommand.nonce userCommand.feePayer
    userCommand.fee ledger currentGlobalSlot
  return (loc, account', {
    userCommand := ⟨userCommand, .applied .empty .empty⟩
    previousReceiptChainHash := account.receiptChainHash
    feePayerTiming := account.timing
    sourceTiming := none })

/-! ## The updates of a command -/

/-- How `compute_updates` ends early: the command fails, and only the fee is
charged, or it is rejected by an exception. -/
inductive Stop where
  | failure (f : Failure)
  | reject (e : TransactionError)
deriving DecidableEq

structure Updates (F VK : Type) where
  locatedAccounts : List (Located × Account F VK)
  sourceTiming : Timing
  auxiliaryData : AuxiliaryData
  body : AppliedBody
deriving DecidableEq

def fail {α : Type} (f : Failure) : Except Stop α := .error (.failure f)

def orFail {α : Type} : Except Failure α → Except Stop α := Except.mapError .failure

def orReject {α : Type} : Except TransactionError α → Except Stop α := Except.mapError .reject

/-- Fail the command unless the account is there. -/
def checkExists (t : Located) (f : Failure) : Except Stop Unit := if t = .new then fail f else .ok ()

def chargeAccountCreationFeeExn (accountCreationFee : Fee) (currentGlobalSlot : GlobalSlot)
    (account : Account F VK) : Except TransactionError (Account F VK) := do
  match Currency.sub account.balance accountCreationFee with
  | none => .error (.raised "Option.value_exn None")
  | some balance =>
    let account := { account with balance }
    let timing ← validateTimingErr account 0 currentGlobalSlot
    return { account with timing }

/-- The fee payer may act for another source only to create a token; for a new
account the answer is used later. -/
def predicatePassed (c : SignedCommand) : Except Stop Bool :=
  if c.feePayerPk = c.sourcePk then .ok true
  else
    match c.payload.body with
    | .createNewToken _ => .ok true
    | .createTokenAccount _ => .ok false
    | .payment _ | .stakeDelegation .. | .mintTokens _ => fail .predicate

def stakeDelegationUpdates (ledger : L) (currentGlobalSlot : GlobalSlot) (source receiver : AccountId) :
    Except Stop (Updates F VK) := do
  let (receiverLocation, _) := getWithLocation ledger receiver
  let (sourceLocation, sourceAccount) := getWithLocation ledger source
  checkExists sourceLocation .sourceNotPresent
  checkExists receiverLocation .receiverNotPresent
  let timing ← orFail (validateTimingFailure sourceAccount 0 currentGlobalSlot)
  return {
    locatedAccounts := [(sourceLocation, { sourceAccount with delegate := some receiver.publicKey, timing })]
    sourceTiming := sourceAccount.timing
    auxiliaryData := .empty
    body := .stakeDelegation sourceAccount.delegate }

/-- The location of the source of a payment, its timing and the account after
the payment. When it is the receiver only the timing needs updating. -/
def paymentSource (ledger : L) (currentGlobalSlot : GlobalSlot) (source receiver : AccountId)
    (amount : Amount) : Except Stop (Located × Timing × Account F VK) :=
  if source = receiver then do
    let (location, account) := getWithLocation ledger receiver
    checkExists location .sourceNotPresent
    let timing ← orFail (validateTimingFailure account amount currentGlobalSlot)
    return (location, account.timing, { account with timing })
  else do
    let (location, account) := getWithLocation ledger source
    checkExists location .sourceNotPresent
    let timing ← orFail (validateTimingFailure account amount currentGlobalSlot)
    let balance ← orFail ((subAmount account.balance amount).mapError fun _ => Failure.sourceInsufficientBalance)
    return (location, account.timing, { account with timing, balance })

/-- A fee payer that cannot make its own payment has the command rejected. -/
def rejectFailure {α : Type} (feePayerIsSource : Bool) : Except Stop α → Except Stop α
  | .error (.failure f) => .error (if feePayerIsSource then .reject (.rejected f) else .failure f)
  | x => x

/-- What the receiver of a payment gets: a new account pays for its creation. -/
def receiverAmount (accountCreationFee : Fee) (receiverLocation : Located) (token : TokenId) (amount : Amount) :
    Except Stop Amount :=
  match receiverLocation with
  | .existing _ => .ok amount
  | .new =>
    if token = TokenId.default then
      orFail ((subAccountCreationFee accountCreationFee .added amount).mapError
        fun _ => Failure.amountInsufficientToCreateAccount)
    else fail .cannotPayCreationFeeInToken

def paymentUpdates (accountCreationFee : Fee) (ledger : L) (currentGlobalSlot : GlobalSlot)
    (feePayer source receiver : AccountId) (amount : Amount) (token : TokenId) :
    Except Stop (Updates F VK) := do
  let (receiverLocation, receiverAccount) := getWithLocation ledger receiver
  let (sourceLocation, sourceTiming, sourceAccount) ←
    rejectFailure (feePayer = source) (paymentSource ledger currentGlobalSlot source receiver amount)
  let receiverAmount ← receiverAmount accountCreationFee receiverLocation token amount
  let receiverAccount ← orFail (incrBalance receiverAccount receiverAmount)
  let (previousEmptyAccounts, auxiliaryData) : List AccountId × AuxiliaryData :=
    match receiverLocation with
    | .existing _ => ([], .empty)
    | .new => ([receiver], { AuxiliaryData.empty with
        receiverAccountCreationFeePaid := some accountCreationFee })
  return {
    locatedAccounts := [(receiverLocation, receiverAccount), (sourceLocation, sourceAccount)]
    sourceTiming
    auxiliaryData
    body := .payment previousEmptyAccounts }

/-- The source and the receiver are the same account here. -/
def createNewTokenUpdates (accountCreationFee : Fee) (ledger : L) (currentGlobalSlot : GlobalSlot)
    (feePayerLocation : Located) (feePayerAccount : Account F VK) (nextAvailableToken : TokenId)
    (receiver : AccountId) (disableNewAccounts : Bool) : Except Stop (Updates F VK) := do
  let feePayerAccount ← orReject
    (chargeAccountCreationFeeExn accountCreationFee currentGlobalSlot feePayerAccount)
  let (receiverLocation, receiverAccount) := getWithLocation ledger receiver
  if receiverLocation ≠ .new then
    .error (.reject (.raised "Token owner account for newly created token already exists?!?!"))
  else
    let receiverAccount := { receiverAccount with tokenPermissions := .tokenOwned disableNewAccounts }
    return {
      locatedAccounts := [(feePayerLocation, feePayerAccount), (receiverLocation, receiverAccount)]
      sourceTiming := receiverAccount.timing
      auxiliaryData := { AuxiliaryData.empty with
        feePayerAccountCreationFeePaid := some accountCreationFee
        createdToken := some nextAvailableToken }
      body := .createNewToken nextAvailableToken }

/-- The source of a new account, which owns its token. -/
def tokenAccountSource (ledger : L) (feePayer source receiver : AccountId)
    (feePayerAccount receiverAccount : Account F VK) : Except Stop (Located × Account F VK) := do
  let (sourceLocation, sourceAccount) := getWithLocation ledger source
  if source = receiver then return (sourceLocation, receiverAccount)
  else if source = feePayer then return (sourceLocation, feePayerAccount)
  else
    checkExists sourceLocation .sourceNotPresent
    return (sourceLocation, sourceAccount)

/-- Whether the owner of the token lets the account be created. -/
def checkTokenPermissions (permissions : TokenPermissions) (accountDisabled predicatePassed : Bool)
    (receiver : AccountId) : Except Stop Unit :=
  match permissions with
  | .tokenOwned disableNewAccounts =>
    if !(accountDisabled == disableNewAccounts || predicatePassed) then fail .mismatchedTokenPermissions
    else .ok ()
  | .notOwned _ => if receiver.tokenId = TokenId.default then .ok () else fail .notTokenOwner

def createTokenAccountUpdates (accountCreationFee : Fee) (ledger : L) (currentGlobalSlot : GlobalSlot)
    (feePayer source receiver : AccountId) (feePayerLocation : Located) (feePayerAccount : Account F VK)
    (predicatePassed accountDisabled : Bool) : Except Stop (Updates F VK) := do
  if accountDisabled ∧ receiver.tokenId = TokenId.default then .error (.reject .disabledDefaultToken)
  else
    let feePayerAccount ← orReject
      (chargeAccountCreationFeeExn accountCreationFee currentGlobalSlot feePayerAccount)
    let (receiverLocation, receiverAccount) := getWithLocation ledger receiver
    if receiverLocation ≠ .new then fail .receiverAlreadyExists
    else
      let receiverAccount := { receiverAccount with tokenPermissions := .notOwned accountDisabled }
      let (sourceLocation, sourceAccount) ←
        tokenAccountSource ledger feePayer source receiver feePayerAccount receiverAccount
      checkTokenPermissions sourceAccount.tokenPermissions accountDisabled predicatePassed receiver
      let timing ← orFail (validateTimingFailure sourceAccount 0 currentGlobalSlot)
      let sourceUpdated := { sourceAccount with timing }
      return {
        locatedAccounts :=
          if source = receiver then [(feePayerLocation, feePayerAccount), (sourceLocation, sourceUpdated)]
          else [(receiverLocation, receiverAccount), (feePayerLocation, feePayerAccount),
            (sourceLocation, sourceUpdated)]
        sourceTiming := sourceAccount.timing
        auxiliaryData := { AuxiliaryData.empty with
          feePayerAccountCreationFeePaid := some accountCreationFee }
        body := .createTokenAccount }

def checkTokenOwner : TokenPermissions → Except Stop Unit
  | .tokenOwned _ => .ok ()
  | .notOwned _ => fail .notTokenOwner

def mintTokensUpdates (ledger : L) (currentGlobalSlot : GlobalSlot) (source receiver : AccountId)
    (token : TokenId) (amount : Amount) : Except Stop (Updates F VK) := do
  if token = TokenId.default then fail .notTokenOwner
  else
    let (receiverLocation, receiverAccount) := getWithLocation ledger receiver
    checkExists receiverLocation .receiverNotPresent
    let receiverAccount ← orFail (incrBalance receiverAccount amount)
    let (location, account) : Located × Account F VK :=
      if source = receiver then (receiverLocation, receiverAccount) else getWithLocation ledger source
    checkExists location .sourceNotPresent
    checkTokenOwner account.tokenPermissions
    let timing ← orFail (validateTimingFailure account 0 currentGlobalSlot)
    return {
      locatedAccounts := [(receiverLocation, receiverAccount), (location, { account with timing })]
      sourceTiming := account.timing
      auxiliaryData := .empty
      body := .mintTokens }

/-- The changes that apply the command, on the ledger that has been charged the
fee. -/
def computeUpdates (accountCreationFee : Fee) (currentGlobalSlot : GlobalSlot) (ledger : L) (c : SignedCommand)
    (feePayerLocation : Located) (feePayerAccount : Account F VK) : Except Stop (Updates F VK) := do
  let nextAvailableToken := nextAvailableToken ledger
  let feePayer := c.feePayer
  let source := c.source nextAvailableToken
  let receiver := c.receiver nextAvailableToken
  let predicatePassed ← predicatePassed c
  match c.payload.body with
  | .stakeDelegation .. => stakeDelegationUpdates ledger currentGlobalSlot source receiver
  | .payment p =>
    paymentUpdates accountCreationFee ledger currentGlobalSlot feePayer source receiver p.amount p.tokenId
  | .createNewToken p =>
    createNewTokenUpdates accountCreationFee ledger currentGlobalSlot feePayerLocation feePayerAccount
      nextAvailableToken receiver p.disableNewAccounts
  | .createTokenAccount p =>
    createTokenAccountUpdates accountCreationFee ledger currentGlobalSlot feePayer source receiver
      feePayerLocation feePayerAccount predicatePassed p.accountDisabled
  | .mintTokens p => mintTokensUpdates ledger currentGlobalSlot source receiver p.tokenId p.amount

def computeBalances (ledger : L) (feePayer source receiver : AccountId) : BalanceData :=
  ⟨computeBalance ledger feePayer, computeBalance ledger source, computeBalance ledger receiver⟩

/-- The accounts are written in order. -/
def setLocatedAccounts : List (Located × Account F VK) → LedgerM L Unit
  | [] => pure ()
  | (location, account) :: rest => do
    setWithLocation location account
    setLocatedAccounts rest

/-- The fee is charged whether or not the command succeeds. -/
def applyUserCommandUnchecked (accountCreationFee : Fee) (txnGlobalSlot : GlobalSlot) (c : SignedCommand) :
    LedgerM L (SignedCommandApplied F) := do
  orRaise (validateTime c.validUntil txnGlobalSlot)
  let ledger : L ← reads id
  let (feePayerLocation, feePayerAccount, appliedCommon) ← orRaise (payFee c c.signer ledger txnGlobalSlot)
  setWithLocation feePayerLocation feePayerAccount
  let ledger : L ← reads id
  let nextAvailableToken := nextAvailableToken ledger
  let source := c.source nextAvailableToken
  let receiver := c.receiver nextAvailableToken
  match computeUpdates accountCreationFee txnGlobalSlot ledger c feePayerLocation feePayerAccount with
  | .ok u =>
    setLocatedAccounts u.locatedAccounts
    let balances ← reads fun ledger : L => computeBalances ledger c.feePayer source receiver
    return {
      common := { appliedCommon with
        sourceTiming := some u.sourceTiming
        userCommand := ⟨c, .applied u.auxiliaryData balances⟩ }
      body := u.body }
  | .error (.failure failure) =>
    return {
      common := { appliedCommon with
        userCommand := ⟨c, .failed failure (computeBalances ledger c.feePayer source receiver)⟩ }
      body := .failed }
  | .error (.reject e) => throw e

/-! ## Fee transfers -/

def updateTimingWhenNoDeduction (txnGlobalSlot : GlobalSlot) (account : Account F VK) :
    Except TransactionError Timing := validateTimingErr account 0 txnGlobalSlot

/-- `Fee_transfer.Single.receiver`. -/
def feeTransferReceiver (s : FeeTransfer.Single) : AccountId := ⟨s.receiverPk, s.feeToken⟩

/-- The accounts that were added, and the timing of the last receiver before.
The first of two receivers keeps its timing. -/
def processFeeTransfer (transfer : FeeTransfer)
    (modifyBalance : AccountState → AccountId → Balance → Fee → Except TransactionError Balance)
    (modifyTiming : Account F VK → Except TransactionError Timing) : LedgerM L (List AccountId × Timing) := do
  orRaise (check ((OneOrTwo.toList transfer).all (·.feeToken = TokenId.default)) .feeTokens)
  match transfer with
  | .one ft => do
    let accountId := feeTransferReceiver ft
    let (action, a, loc) ← getOrCreate accountId
    let timing ← orRaise (modifyTiming a)
    let balance ← orRaise (modifyBalance action accountId a.balance ft.fee)
    set loc { a with balance, timing }
    return (previousEmptyAccounts action accountId, a.timing)
  | .two ft1 ft2 => do
    let accountId1 := feeTransferReceiver ft1
    let (action1, a1, l1) ← getOrCreate accountId1
    let accountId2 := feeTransferReceiver ft2
    if accountId1 = accountId2 then
      let fee ← orRaise (errorOpt "overflow" (Currency.add ft1.fee ft2.fee))
      let timing ← orRaise (modifyTiming a1)
      let balance ← orRaise (modifyBalance action1 accountId1 a1.balance fee)
      set l1 { a1 with balance, timing }
      return (previousEmptyAccounts action1 accountId1, a1.timing)
    else
      let (action2, a2, l2) ← getOrCreate accountId2
      let balance1 ← orRaise (modifyBalance action1 accountId1 a1.balance ft1.fee)
      let timing2 ← orRaise (modifyTiming a2)
      let balance2 ← orRaise (modifyBalance action2 accountId2 a2.balance ft2.fee)
      set l1 { a1 with balance := balance1 }
      set l2 { a2 with balance := balance2, timing := timing2 }
      return (previousEmptyAccounts action1 accountId1 ++ previousEmptyAccounts action2 accountId2, a2.timing)

def feeTransferBalances (ledger : L) (transfer : FeeTransfer) : Except TransactionError FeeTransferBalanceData :=
  let receiver1 (ft : FeeTransfer.Single) : Except TransactionError Balance :=
    match computeBalance ledger (feeTransferReceiver ft) with
    | some b => .ok b
    | none => .error (.raised "Option.value_exn None")
  match transfer with
  | .one ft => do return ⟨← receiver1 ft, none⟩
  | .two ft1 ft2 => do return ⟨← receiver1 ft1, computeBalance ledger (feeTransferReceiver ft2)⟩

def applyFeeTransfer (accountCreationFee : Fee) (txnGlobalSlot : GlobalSlot) (transfer : FeeTransfer) :
    LedgerM L FeeTransferApplied := do
  let (previousEmptyAccounts, receiverTiming) ← processFeeTransfer transfer
    (fun action _ b f => do
      let amount ← subAccountCreationFee accountCreationFee action f
      addAmount b amount)
    (fun acc => updateTimingWhenNoDeduction txnGlobalSlot acc)
  let ledger : L ← reads id
  let balances ← orRaise (feeTransferBalances ledger transfer)
  return { feeTransfer := transfer, previousEmptyAccounts, receiverTiming, balances }

/-- Whether an account was added, as the application has recorded it. -/
def recordedState (previousEmptyAccounts : List AccountId) (accountId : AccountId) : AccountState :=
  if accountId ∈ previousEmptyAccounts then .added else .existed

def undoFeeTransfer (accountCreationFee : Fee) (u : FeeTransferApplied) : LedgerM L Unit := do
  let _ ← processFeeTransfer u.feeTransfer
    (fun _ aid b f => do
      let amount ← subAccountCreationFee accountCreationFee (recordedState u.previousEmptyAccounts aid) f
      subAmount b amount)
    (fun _ => .ok u.receiverTiming)
  removeAccountsExn u.previousEmptyAccounts

/-! ## Coinbases -/

/-- `Coinbase.Fee_transfer.receiver`. -/
def coinbaseFeeReceiver (ft : CoinbaseFeeTransfer) : AccountId := ⟨ft.receiverPk, TokenId.default⟩

/-- The account of a coinbase's receiver. -/
def coinbaseReceiver (cb : Coinbase) : AccountId := ⟨cb.receiver, TokenId.default⟩

/-- The receiver's reward, the accounts added, the transferee's update and its
timing before. -/
def coinbaseTransferee (accountCreationFee : Fee) (txnGlobalSlot : GlobalSlot) (cb : Coinbase) :
    LedgerM L (Amount × List AccountId × Option (Location × Account F VK) × Option Timing) := do
  match cb.feeTransfer with
  | none => return (cb.amount, [], none, none)
  | some ft => do
    orRaise (check (ft.receiverPk ≠ cb.receiver) (.raised "Assert_failure"))
    let receiverReward ← orRaise (errorOpt "Coinbase fee transfer too large" (Currency.sub cb.amount ft.fee))
    let transfereeId := coinbaseFeeReceiver ft
    let (action, transfereeAccount, transfereeLocation) ← getOrCreate transfereeId
    let timing ← orRaise (updateTimingWhenNoDeduction txnGlobalSlot transfereeAccount)
    let amount ← orRaise (subAccountCreationFee accountCreationFee action ft.fee)
    let balance ← orRaise (addAmount transfereeAccount.balance amount)
    return (receiverReward, previousEmptyAccounts action transfereeId,
      some (transfereeLocation, { transfereeAccount with balance, timing }), some transfereeAccount.timing)

def setTransferee : Option (Location × Account F VK) → LedgerM L Unit
  | none => pure ()
  | some (l, a) => set l a

/-- The timing of the receiver is updated only without a fee transfer. -/
def applyCoinbase (accountCreationFee : Fee) (txnGlobalSlot : GlobalSlot) (cb : Coinbase) :
    LedgerM L CoinbaseApplied := do
  let (receiverReward, emptys1, transfereeUpdate, transfereeTimingPrev) ←
    coinbaseTransferee accountCreationFee txnGlobalSlot cb
  let receiverId := coinbaseReceiver cb
  let (action2, receiverAccount, receiverLocation) ← getOrCreate receiverId
  let (receiverTimingForApplied, coinbaseReceiverTiming) ← orRaise <|
    match transfereeTimingPrev with
    | none => do
      let newReceiverTiming ← updateTimingWhenNoDeduction txnGlobalSlot receiverAccount
      return (receiverAccount.timing, newReceiverTiming)
    | some timing => .ok (timing, receiverAccount.timing)
  let amount ← orRaise (subAccountCreationFee accountCreationFee action2 receiverReward)
  let receiverBalance ← orRaise (addAmount receiverAccount.balance amount)
  set receiverLocation { receiverAccount with balance := receiverBalance, timing := coinbaseReceiverTiming }
  setTransferee transfereeUpdate
  return {
    coinbase := cb
    previousEmptyAccounts := emptys1 ++ previousEmptyAccounts action2 receiverId
    receiverTiming := receiverTimingForApplied
    balances := ⟨receiverBalance, transfereeUpdate.map (·.2.balance)⟩ }

/-- An account, less the amount that the coinbase has paid it. -/
def undoReward (accountCreationFee : Fee) (previousEmptyAccounts : List AccountId) (ledger : L) (tag : String)
    (accountId : AccountId) (reward : Amount) : Except TransactionError (Location × Account F VK) := do
  let (location, account) ← locate ledger tag accountId
  let amount ← subAccountCreationFee accountCreationFee (recordedState previousEmptyAccounts accountId) reward
  let balance ← valueExn (Currency.sub account.balance amount)
  return (location, { account with balance })

/-- The receiver's reward and its timing before, after the transferee has given
back the fee. -/
def undoTransferee (accountCreationFee : Fee) (u : CoinbaseApplied) : LedgerM L (Amount × Option Timing) := do
  match u.coinbase.feeTransfer with
  | none => return (u.coinbase.amount, some u.receiverTiming)
  | some ft => do
    let ledger : L ← reads id
    let (transfereeLocation, transfereeAccount) ← orRaise <|
      undoReward accountCreationFee u.previousEmptyAccounts ledger "transferee" (coinbaseFeeReceiver ft) ft.fee
    set transfereeLocation { transfereeAccount with timing := u.receiverTiming }
    let receiverReward ← orRaise (valueExn (Currency.sub u.coinbase.amount ft.fee))
    return (receiverReward, none)

def undoCoinbase (accountCreationFee : Fee) (u : CoinbaseApplied) : LedgerM L Unit := do
  let (receiverReward, receiverTiming) ← undoTransferee accountCreationFee u
  let ledger : L ← reads id
  let (receiverLocation, receiverAccount) ← orRaise <|
    undoReward accountCreationFee u.previousEmptyAccounts ledger "receiver" (coinbaseReceiver u.coinbase)
      receiverReward
  set receiverLocation { receiverAccount with timing := receiverTiming.getD receiverAccount.timing }
  removeAccountsExn u.previousEmptyAccounts

/-! ## Undoing a command -/

/-- The fee payer before the fee was charged. -/
def undoFeePayer (ledger : L) (u : SignedCommandApplied F) :
    Except TransactionError (Location × Account F VK) := do
  let c := u.common.userCommand.data
  let (feePayerLocation, account) ← locate ledger "fee payer" c.feePayer
  validateNonces c.nonce.succ account.nonce
  let balance ← addAmount account.balance c.fee
  return (feePayerLocation, { account with
    balance
    nonce := c.nonce
    receiptChainHash := u.common.previousReceiptChainHash
    timing := u.common.feePayerTiming })

def undoStakeDelegation (ledger : L) (source : AccountId) (sourceTiming : Option Timing)
    (previousDelegate : Option PublicKey) : Except TransactionError (Location × Account F VK) := do
  let (sourceLocation, sourceAccount) ← locate ledger "source" source
  return (sourceLocation, { sourceAccount with
    delegate := previousDelegate
    timing := sourceTiming.getD sourceAccount.timing })

/-- The source, which may be the receiver. -/
def undoSource (ledger : L) (source receiver : AccountId) (r : Location × Account F VK) :
    Except TransactionError (Location × Account F VK) :=
  if source = receiver then .ok r else locate ledger "source" source

/-- The receiver and the source before the payment. The balance of the receiver
is too small only when the creation fee was taken from it; the account is
removed then. -/
def undoPayment (ledger : L) (source receiver : AccountId) (sourceTiming : Option Timing) (amount : Amount) :
    Except TransactionError ((Location × Account F VK) × (Location × Account F VK)) := do
  let (receiverLocation, account) ← locate ledger "receiver" receiver
  let receiverAccount := { account with balance := (Currency.sub account.balance amount).getD 0 }
  let (location, account) ← undoSource ledger source receiver (receiverLocation, receiverAccount)
  let balance ← addAmount account.balance amount
  return ((receiverLocation, receiverAccount),
    (location, { account with balance, timing := sourceTiming.getD account.timing }))

/-- The account of the source, which may be the fee payer. -/
def undoSourceAccount (ledger : L) (feePayer source : AccountId) (feePayerAccount : Account F VK)
    (sourceLocation : Location) : Except TransactionError (Account F VK) :=
  if feePayer = source then .ok feePayerAccount else get' ledger "source" sourceLocation

/-- The fee payer before it was charged for the new account, and the source. -/
def undoCreateAccount (accountCreationFee : Fee) (ledger : L) (feePayer source : AccountId)
    (feePayerAccount : Account F VK) (sourceTiming : Option Timing) :
    Except TransactionError (Account F VK × (Location × Account F VK)) := do
  match Currency.add feePayerAccount.balance accountCreationFee with
  | none => .error (.raised "Option.value_exn None")
  | some balance =>
    let feePayerAccount := { feePayerAccount with balance }
    let sourceLocation ← locationOfAccount' ledger "source" source
    let sourceAccount ← undoSourceAccount ledger feePayer source feePayerAccount sourceLocation
    return (feePayerAccount,
      (sourceLocation, { sourceAccount with timing := sourceTiming.getD sourceAccount.timing }))

def undoMintTokens (ledger : L) (source receiver : AccountId) (sourceTiming : Option Timing) (amount : Amount) :
    Except TransactionError ((Location × Account F VK) × (Location × Account F VK)) := do
  let (receiverLocation, account) ← locate ledger "receiver" receiver
  match Currency.sub account.balance amount with
  | none => .error (.raised "Option.value_exn None")
  | some balance =>
    let receiverAccount := { account with balance }
    let (location, account) ← undoSource ledger source receiver (receiverLocation, receiverAccount)
    return ((receiverLocation, receiverAccount), (location, { account with
      timing := sourceTiming.getD account.timing }))

/-- What the command did besides its fee. The timing of the fee payer is the
one from before the fee was charged. -/
def undoBody (accountCreationFee : Fee) (u : SignedCommandApplied F) (feePayerLocation : Location)
    (feePayerAccount : Account F VK) : LedgerM L Unit := do
  let c := u.common.userCommand.data
  let feePayer := c.feePayer
  let ledger : L ← reads id
  let nextAvailableToken := match u.body with
    | .createNewToken createdToken => createdToken
    | _ => nextAvailableToken ledger
  let source := c.source nextAvailableToken
  let receiver := c.receiver nextAvailableToken
  let sourceTiming := if feePayer = source then some u.common.feePayerTiming else u.common.sourceTiming
  match u.body, c.payload.body with
  | .failed, _ => pure ()
  | .stakeDelegation previousDelegate, .stakeDelegation .. => do
    let (l, a) ← orRaise (undoStakeDelegation ledger source sourceTiming previousDelegate)
    set l a
  | .payment previousEmptyAccounts, .payment p => do
    let (r, s) ← orRaise (undoPayment ledger source receiver sourceTiming p.amount)
    set r.1 r.2
    set s.1 s.2
    removeAccountsExn previousEmptyAccounts
  | .createNewToken _, .createNewToken _ | .createTokenAccount, .createTokenAccount _ => do
    let (feePayerAccount, s) ← orRaise <|
      undoCreateAccount accountCreationFee ledger feePayer source feePayerAccount sourceTiming
    set feePayerLocation feePayerAccount
    set s.1 s.2
    removeAccountsExn [receiver]
    setNextAvailableToken nextAvailableToken
  | .mintTokens, .mintTokens p => do
    let (r, s) ← orRaise (undoMintTokens ledger source receiver sourceTiming p.amount)
    set r.1 r.2
    set s.1 s.2
  | _, _ => throw (.raised "Transaction_applied/command mismatch")

def undoUserCommand (accountCreationFee : Fee) (u : SignedCommandApplied F) : LedgerM L Unit := do
  let ledger : L ← reads id
  let (feePayerLocation, feePayerAccount) ← orRaise (undoFeePayer ledger u)
  set feePayerLocation feePayerAccount
  undoBody accountCreationFee u feePayerLocation feePayerAccount

/-! ## Transactions -/

def applyVarying (accountCreationFee : Fee) (txnGlobalSlot : GlobalSlot) : Txn → LedgerM L (Varying F)
  | .command txn => do return .command (← applyUserCommandUnchecked accountCreationFee txnGlobalSlot txn)
  | .feeTransfer t => do return .feeTransfer (← applyFeeTransfer accountCreationFee txnGlobalSlot t)
  | .coinbase t => do return .coinbase (← applyCoinbase accountCreationFee txnGlobalSlot t)

def applyTransaction (accountCreationFee : Fee) (txnGlobalSlot : GlobalSlot) (t : Txn) :
    LedgerM L (TransactionApplied F Hash) := do
  let previousHash : Hash ← reads fun ledger : L => merkleRoot ledger
  let varying ← applyVarying accountCreationFee txnGlobalSlot t
  return { previousHash, varying }

/-- The comparison of the root with the previous one is made in debug builds
only. -/
def undo (accountCreationFee : Fee) (applied : TransactionApplied F Hash) : LedgerM L Unit :=
  match applied.varying with
  | .feeTransfer u => undoFeeTransfer accountCreationFee u
  | .command u => undoUserCommand accountCreationFee u
  | .coinbase c => undoCoinbase accountCreationFee c

def merkleRootAfterUserCommandExn (accountCreationFee : Fee) (txnGlobalSlot : GlobalSlot) (payment : SignedCommand) :
    LedgerM L (Hash × TokenId) := do
  let applied ← applyUserCommandUnchecked accountCreationFee txnGlobalSlot payment
  let root : Hash ← reads fun ledger : L => merkleRoot ledger
  let nextAvailableToken ← reads fun ledger : L => LedgerIntf.nextAvailableToken ledger
  undoUserCommand accountCreationFee applied
  return (root, nextAvailableToken)

end Mina.TransactionLogic
