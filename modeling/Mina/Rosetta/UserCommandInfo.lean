/-
Rosetta operations and user commands (`rosetta_lib/user_command_info.ml`,
`rosetta_lib/validation.ml`).

A command is built from operations by five parsers, each a validation of
several checks whose errors are appended; `let%map … and …` is `apply` over and
over. A check that converts a numeral, or forces an option, may raise; checks
are evaluated from the last to the first. Public keys are their strings.
-/
import Mina.Rosetta.Models

namespace Mina.Rosetta

/-! ## Validation -/

/-- `Errors.Partial_reason` -/
inductive Reason where
  | lengthMismatch
  | feePayerAndSourceMismatch
  | amountNotSome
  | accountNotSome
  | invalidMetadata
  | incorrectTokenId
  | amountIncDecMismatch
  | statusNotPending
  | cantFindKind (name : String)
  deriving DecidableEq

/-- `Validation.t` -/
abbrev Validation (α : Type) := Except (List Reason) α

namespace Validation

variable {α β : Type}

def fail (e : Reason) : Validation α := .error [e]

def map (f : α → β) : Validation α → Validation β
  | .ok a => .ok (f a)
  | .error es => .error es

def apply (ft : Validation (α → β)) (t : Validation α) : Validation β :=
  match ft, t with
  | .ok f, .ok a => .ok (f a)
  | .error es, .ok _ => .error es
  | .ok _, .error es => .error es
  | .error es, .error es' => .error (es ++ es')

/-- `Result.bind` -/
def bind (t : Validation α) (f : α → Validation β) : Validation β :=
  match t with
  | .ok a => f a
  | .error es => .error es

/-- The function that is mapped may raise. -/
def run (t : Validation (Exn α)) : Exn (Validation α) :=
  match t with
  | .ok x => x.andThen fun a => .ok (.ok a)
  | .error es => .ok (.error es)

end Validation

open Validation

/-! ## Commands -/

inductive Kind where
  | payment
  | delegation
  | createToken
  | createTokenAccount
  | mintTokens
  deriving DecidableEq

/-- `Partial.t` -/
structure Partial where
  kind : Kind
  feePayer : String
  source : String
  receiver : String
  feeToken : Uint64
  token : Uint64
  fee : Uint64
  amount : Option Uint64
  validUntil : Option Uint32
  memo : Option String
  deriving DecidableEq

inductive AccountCreationFeesPaid where
  | byNoOne
  | byFeePayer (amount : Uint64)
  | byReceiver (amount : Uint64)

inductive FailureStatus where
  | applied (fees : AccountCreationFeesPaid)
  | failed (reason : String)

def accountId (pk : String) (tokenId : Uint64) : AccountIdentifier where
  address := pk
  subAccount := none
  metadata := some (TokenId.encode tokenId)

def tokenIdOfAccount (account : AccountIdentifier) : Option Uint64 := TokenId.decode account.metadata

/-! ## Checks -/

section Checks

variable (ops : List Operation)

def findKind (k : OperationType) : Validation Operation :=
  match ops.find? fun op => op.type = k.name with
  | some op => .ok op
  | none => .error [.cantFindKind k.name]

def lengthIs (n : Nat) : Validation Unit := if ops.length = n then .ok () else fail .lengthMismatch

/-- `account_a` of the parsers other than the payment's, and `account_b`. -/
def accountOf (k : OperationType) : Validation AccountIdentifier :=
  (findKind ops k).bind fun op =>
    match op.account with
    | some account => .ok account
    | none => fail .accountNotSome

/-- `token` of a payment, and `fee_token`. -/
def tokenOf (k : OperationType) : Validation Uint64 :=
  (findKind ops k).bind fun op =>
    match op.account with
    | none => fail .accountNotSome
    | some account =>
      match tokenIdOfAccount account with
      | some token => .ok token
      | none => fail .incorrectTokenId

/-- No status, or an empty one. -/
def statusEmpty : Validation Unit :=
  if ops.all fun op => op.status = none || op.status = some "" then .ok () else fail .statusNotPending

def statusPending : Validation Unit :=
  if ops.all fun op => op.status = some "Pending" then .ok () else fail .statusNotPending

/-- `payment_amount_y` -/
def paymentAmountY : Exn (Validation Amount) :=
  match findKind ops .feePayment with
  | .error es => .ok (.error es)
  | .ok op =>
    match op.amount with
    | some x => (negated x).andThen fun y => .ok (.ok y)
    | none => .ok (fail .amountNotSome)

/-- `account_a` of a payment. -/
def paymentAccountA : Validation AccountIdentifier :=
  (findKind ops .paymentSourceDec).bind fun source =>
    (findKind ops .feePayment).bind fun fee =>
      match source.account, fee.account with
      | some x, some y => if x.equal y then .ok x else fail .feePayerAndSourceMismatch
      | _, _ => fail .accountNotSome

def paymentAmountX : Exn (Validation Amount) :=
  match findKind ops .paymentSourceDec with
  | .error es => .ok (.error es)
  | .ok source =>
    match findKind ops .paymentReceiverInc with
    | .error es => .ok (.error es)
    | .ok receiver =>
      match source.amount, receiver.amount with
      | some x, some y =>
        (negated x).andThen fun x => .ok (if x.equal y then .ok y else fail .amountIncDecMismatch)
      | _, _ => .ok (fail .amountNotSome)

/-- The one field of the metadata of an operation. -/
def fieldOf (k : OperationType) (key : String) : Validation String :=
  (findKind ops k).bind fun op =>
    match op.metadata with
    | some (.assoc [(key', s)]) => if key' = key then .ok s else fail .invalidMetadata
    | some _ => fail .invalidMetadata
    | none => fail .accountNotSome

/-- There is no operation of the kind. -/
def absent (k : OperationType) : Validation Unit :=
  match findKind ops k with
  | .ok _ => fail .invalidMetadata
  | .error _ => .ok ()

def mintAmount : Validation Amount :=
  (findKind ops .mintTokens).bind fun op =>
    match op.amount with
    | some amount => .ok amount
    | none => fail .amountNotSome

/-- `token` of the minting, whatever the check of the amount says. -/
def mintToken : Exn (Validation Uint64) :=
  match findKind ops .mintTokens with
  | .error es => .ok (.error es)
  | .ok op =>
    (Exn.valueExn op.amount).andThen fun amount =>
      .ok (if amount.currency.symbol = "MINA+" then .ok 2 else fail .incorrectTokenId)

end Checks

/-! ## `of_operations` -/

section Parsers

variable (memo : Option String) (validUntil : Option Uint32) (ops : List Operation)

/-- The command of a payment, from its checks. -/
def paymentCommand (_ : Unit) (accountA : AccountIdentifier) (token feeToken : Uint64) (accountB : AccountIdentifier)
    (_ : Unit) (amountX amountY : Amount) : Exn Partial :=
  (Uint64.ofString amountX.value).andThen fun amount =>
    (Uint64.ofString amountY.value).andThen fun fee =>
      .ok {
        kind := .payment
        feePayer := accountA.address
        source := accountA.address
        receiver := accountB.address
        feeToken, token, fee
        amount := some amount
        validUntil, memo }

def payment : Exn (Validation Partial) :=
  (paymentAmountY ops).andThen fun paymentAmountY =>
    (paymentAmountX ops).andThen fun paymentAmountX =>
      run ((lengthIs ops 3).map (paymentCommand memo validUntil)
        |>.apply (paymentAccountA ops)
        |>.apply (tokenOf ops .paymentSourceDec)
        |>.apply (tokenOf ops .feePayment)
        |>.apply (accountOf ops .paymentReceiverInc)
        |>.apply (statusEmpty ops)
        |>.apply paymentAmountX
        |>.apply paymentAmountY)

/-- The command of the kinds without an amount. -/
def plainCommand (kind : Kind) (feePayer receiver : String) (feeToken : Uint64) (amountY : Amount) : Exn Partial :=
  (Uint64.ofString amountY.value).andThen fun fee =>
    .ok {
      kind, feePayer
      source := feePayer
      receiver, feeToken
      token := TokenId.default
      fee
      amount := none
      validUntil, memo }

def delegation : Exn (Validation Partial) :=
  (paymentAmountY ops).andThen fun paymentAmountY =>
    run ((lengthIs ops 2).map (fun _ (accountA : AccountIdentifier) feeToken accountB (_ : Unit) amountY =>
          plainCommand memo validUntil .delegation accountA.address accountB feeToken amountY)
      |>.apply (accountOf ops .feePayment)
      |>.apply (tokenOf ops .feePayment)
      |>.apply (fieldOf ops .delegateChange "delegate_change_target")
      |>.apply (statusEmpty ops)
      |>.apply paymentAmountY)

/-- A delegation and a minting are told apart from it. -/
def createToken : Exn (Validation Partial) :=
  (paymentAmountY ops).andThen fun paymentAmountY =>
    run ((lengthIs ops 2).map (fun _ (accountA : AccountIdentifier) feeToken (_ : Unit) amountY (_ _ : Unit) =>
          plainCommand memo validUntil .createToken accountA.address accountA.address feeToken amountY)
      |>.apply (accountOf ops .feePayment)
      |>.apply (tokenOf ops .feePayment)
      |>.apply (statusPending ops)
      |>.apply paymentAmountY
      |>.apply (absent ops .delegateChange)
      |>.apply (absent ops .mintTokens))

def createTokenAccount : Exn (Validation Partial) :=
  (paymentAmountY ops).andThen fun paymentAmountY =>
    run ((lengthIs ops 1).map (fun _ (accountA : AccountIdentifier) feeToken (_ : Unit) amountY =>
          plainCommand memo validUntil .createTokenAccount accountA.address accountA.address feeToken amountY)
      |>.apply (accountOf ops .feePayment)
      |>.apply (tokenOf ops .feePayment)
      |>.apply (statusPending ops)
      |>.apply paymentAmountY)

/-- The command of a minting, from its checks. -/
def mintCommand (_ : Unit) (accountA : AccountIdentifier) (feeToken : Uint64) (_ : Unit) (amountY : Amount)
    (accountB : AccountIdentifier) (amountB : Amount) (accountC : String) (token : Uint64) : Exn Partial :=
  (Uint64.ofString amountB.value).andThen fun amount =>
    (Uint64.ofString amountY.value).andThen fun fee =>
      .ok {
        kind := .mintTokens
        feePayer := accountA.address
        source := accountC
        receiver := accountB.address
        feeToken, token, fee
        amount := some amount
        validUntil, memo }

def mintTokens : Exn (Validation Partial) :=
  (mintToken ops).andThen fun token =>
    (paymentAmountY ops).andThen fun paymentAmountY =>
      run ((lengthIs ops 2).map (mintCommand memo validUntil)
        |>.apply (accountOf ops .feePayment)
        |>.apply (tokenOf ops .feePayment)
        |>.apply (statusPending ops)
        |>.apply paymentAmountY
        |>.apply (accountOf ops .mintTokens)
        |>.apply (mintAmount ops)
        |>.apply (fieldOf ops .mintTokens "token_owner_pk")
        |>.apply token)

/-- The five parsers. -/
def partials : Exn (List (Validation Partial)) :=
  (mintTokens memo validUntil ops).andThen fun mintTokens =>
    (createTokenAccount memo validUntil ops).andThen fun createTokenAccount =>
      (createToken memo validUntil ops).andThen fun createToken =>
        (delegation memo validUntil ops).andThen fun delegation =>
          (payment memo validUntil ops).andThen fun payment =>
            .ok [payment, delegation, createToken, createTokenAccount, mintTokens]

/-- The results that are `Ok`. -/
def oks (results : List (Validation Partial)) : List Partial := results.filterMap Except.toOption

/-- The errors of the others. -/
def errs (results : List (Validation Partial)) : List (List Reason) :=
  results.filterMap fun
    | .ok _ => none
    | .error es => some es

def ofOperations : Exn (Validation Partial) :=
  (partials memo validUntil ops).andThen fun results =>
    match oks results with
    | [] => .ok (.error (errs results).flatten)
    | [p] => .ok (.ok p)
    | _ => .error "A sequence of operations must represent exactly one user command"

end Parsers

/-! ## `to_operations` -/

inductive Label where
  | feePayment
  | accountCreationFeeViaPayment (amount : Uint64)
  | accountCreationFeeViaFeePayer (amount : Uint64)
  | paymentSourceDec (amount : Uint64)
  | paymentReceiverInc (amount : Uint64)
  | delegateChange
  | createToken
  | mintTokens (amount : Uint64)

/-- `Op.t` -/
structure Op where
  label : Label
  relatedTo : Option Label

/-- The `a_eq` of `build`: it knows three labels. -/
def labelEq : Label → Label → Bool
  | .feePayment, .feePayment => true
  | .paymentSourceDec x, .paymentSourceDec y => x = y
  | .paymentReceiverInc x, .paymentReceiverInc y => x = y
  | _, _ => false

def plan (failureStatus : Option FailureStatus) (t : Partial) : List Op :=
  (if t.fee ≠ 0 then [⟨.feePayment, none⟩] else []) ++
    (match failureStatus with
      | some (.applied (.byReceiver amount)) => [⟨.accountCreationFeeViaPayment amount, none⟩]
      | some (.applied (.byFeePayer amount)) => [⟨.accountCreationFeeViaFeePayer amount, none⟩]
      | _ => []) ++
    match t.kind with
    | .payment =>
      match t.amount with
      | some amount => [⟨.paymentSourceDec amount, none⟩, ⟨.paymentReceiverInc amount, some (.paymentSourceDec amount)⟩]
      | none => []
    | .delegation => [⟨.delegateChange, none⟩]
    | .createToken => [⟨.createToken, none⟩]
    | .createTokenAccount => []
    | .mintTokens =>
      match t.amount with
      | some amount => [⟨.mintTokens amount, none⟩]
      | none => []

/-- The status of an operation, its metadata, and whether the command failed. -/
structure Outcome where
  status : Option OperationStatus
  metadata : Option Json
  didFail : Bool

def outcome : Option FailureStatus → Outcome
  | none => ⟨none, none, false⟩
  | some (.applied _) => ⟨some .success, none, false⟩
  | some (.failed reason) => ⟨some .failed, some (.assoc [("reason", reason)]), true⟩

def pendingOrSuccessOnly (status : Option OperationStatus) : Option OperationStatus := status.map fun _ => .success

def mergeMetadata : Option Json → Option Json → Exn (Option Json)
  | none, none => .ok none
  | some x, none => .ok (some x)
  | none, some x => .ok (some x)
  | some (.assoc xs), some (.assoc ys) => .ok (some (.assoc (xs ++ ys)))
  | _, _ => .error "Unexpected pattern"

def operationIdentifier (i : Nat) : OperationIdentifier := ⟨i, none⟩

/-- The `f` of `build`. -/
def operation (failureStatus : Option FailureStatus) (t : Partial) (relatedOperations : Option (List OperationIdentifier))
    (operationIdentifier : OperationIdentifier) (label : Label) : Exn Operation :=
  let outcome := outcome failureStatus
  let operation (k : OperationType) (account : Option AccountIdentifier) (amount : Option Amount) : Operation := {
    operationIdentifier, relatedOperations
    status := outcome.status.map OperationStatus.name
    account
    type := k.name
    amount
    coinChange := none
    metadata := outcome.metadata }
  match label with
  | .feePayment =>
    (negated (token t.feeToken t.fee)).andThen fun amount =>
      .ok { operation .feePayment (some (accountId t.feePayer t.feeToken)) (some amount) with
        status := (pendingOrSuccessOnly outcome.status).map OperationStatus.name }
  | .paymentSourceDec amount =>
    if outcome.didFail then .ok (operation .paymentSourceDec (some (accountId t.source t.token)) none)
    else
      (negated (token t.token amount)).andThen fun amount =>
        .ok (operation .paymentSourceDec (some (accountId t.source t.token)) (some amount))
  | .paymentReceiverInc amount =>
    .ok (operation .paymentReceiverInc (some (accountId t.receiver t.token))
      (if outcome.didFail then none else some (token t.token amount)))
  | .accountCreationFeeViaPayment accountCreationFee =>
    (negated (mina accountCreationFee)).andThen fun amount =>
      .ok (operation .accountCreationFeeViaPayment (some (accountId t.receiver t.token)) (some amount))
  | .accountCreationFeeViaFeePayer accountCreationFee =>
    (negated (mina accountCreationFee)).andThen fun amount =>
      .ok (operation .accountCreationFeeViaFeePayer (some (accountId t.feePayer t.feeToken)) (some amount))
  | .createToken => .ok (operation .createToken none none)
  | .delegateChange =>
    (mergeMetadata outcome.metadata (some (.assoc [("delegate_change_target", t.receiver)]))).andThen fun metadata =>
      .ok { operation .delegateChange (some (accountId t.source TokenId.default)) none with metadata }
  | .mintTokens amount =>
    (mergeMetadata outcome.metadata (some (.assoc [("token_owner_pk", t.source)]))).andThen fun metadata =>
      .ok { operation .mintTokens (some (accountId t.receiver t.token)) (some (token t.token amount)) with metadata }

/-- The operation that an operation is related to. -/
def related (plan : List Op) (op : Op) : Option (List OperationIdentifier) :=
  (op.relatedTo.bind fun relate => plan.findIdx? fun a => labelEq relate a.label).map fun i => [operationIdentifier i]

/-- `Op.build` -/
def build (plan : List Op) (f : Option (List OperationIdentifier) → OperationIdentifier → Label → Exn Operation) :
    Exn (List Operation) :=
  Exn.mapList (fun p => f (related plan p.1) (operationIdentifier p.2) p.1.label) plan.zipIdx

def toOperations (failureStatus : Option FailureStatus) (t : Partial) : Exn (List Operation) :=
  build (plan failureStatus t) (operation failureStatus t)

end Mina.Rosetta
