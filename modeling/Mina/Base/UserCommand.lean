/-
User commands (`mina_base/user_command.ml`, `signed_command_payload.ml`,
`snapp_command.ml`): the two kinds of command and the accessors the other
modules use. An accessor that raises in the source is an `Except.error`
here.

A snapp command keeps what its accessors read: the parties' keys, balance
deltas and nonce predicates, the token and the separate fee payment.
-/
import Mina.Base.Currency

namespace Mina

/-- A compressed public key: one coordinate and the parity of the other. -/
structure PublicKey where
  x : Nat
  isOdd : Bool
deriving DecidableEq, Encodable

structure AccountId where
  publicKey : PublicKey
  tokenId : TokenId
deriving DecidableEq, Encodable

instance : LinearOrder PublicKey :=
  LinearOrder.lift' (fun k => toLex (k.x, k.isOdd)) fun a b h => by cases a; cases b; simpa using h

instance : LinearOrder AccountId :=
  LinearOrder.lift' (fun a => toLex (a.publicKey, a.tokenId)) fun a b h => by cases a; cases b; simpa using h

instance accountIdTransOrd : Std.TransOrd AccountId := inferInstance

instance accountIdLawfulEqOrd : Std.LawfulEqOrd AccountId := ⟨compare_eq_iff_eq.1⟩

/-! ## Signed commands -/

structure PaymentPayload where
  sourcePk : PublicKey
  receiverPk : PublicKey
  tokenId : TokenId
  amount : Amount
deriving DecidableEq, Encodable

structure NewTokenPayload where
  tokenOwnerPk : PublicKey
  disableNewAccounts : Bool
deriving DecidableEq, Encodable

structure NewAccountPayload where
  tokenId : TokenId
  tokenOwnerPk : PublicKey
  receiverPk : PublicKey
  accountDisabled : Bool
deriving DecidableEq, Encodable

structure MintingPayload where
  tokenId : TokenId
  tokenOwnerPk : PublicKey
  receiverPk : PublicKey
  amount : Amount
deriving DecidableEq, Encodable

inductive Body where
  | payment (p : PaymentPayload)
  /-- `Stake_delegation (Set_delegate {delegator; new_delegate})`. -/
  | stakeDelegation (delegator newDelegate : PublicKey)
  | createNewToken (p : NewTokenPayload)
  | createTokenAccount (p : NewAccountPayload)
  | mintTokens (p : MintingPayload)
deriving DecidableEq, Encodable

structure PayloadCommon where
  fee : Fee
  feeToken : TokenId
  feePayerPk : PublicKey
  nonce : AccountNonce
  validUntil : GlobalSlot
  memo : Nat
deriving DecidableEq, Encodable

structure SignedCommandPayload where
  common : PayloadCommon
  body : Body
deriving DecidableEq, Encodable

structure SignedCommand where
  payload : SignedCommandPayload
  signer : PublicKey
  signature : Nat
deriving DecidableEq, Encodable

namespace Body

def sourcePk : Body → PublicKey
  | .payment p => p.sourcePk
  | .stakeDelegation delegator _ => delegator
  | .createNewToken p => p.tokenOwnerPk
  | .createTokenAccount p => p.tokenOwnerPk
  | .mintTokens p => p.tokenOwnerPk

def receiverPk : Body → PublicKey
  | .payment p => p.receiverPk
  | .stakeDelegation _ newDelegate => newDelegate
  | .createNewToken p => p.tokenOwnerPk
  | .createTokenAccount p => p.receiverPk
  | .mintTokens p => p.receiverPk

def token : Body → TokenId
  | .payment p => p.tokenId
  | .stakeDelegation _ _ => TokenId.default
  | .createNewToken _ => TokenId.invalid
  | .createTokenAccount p => p.tokenId
  | .mintTokens p => p.tokenId

def source (nextAvailableToken : TokenId) : Body → AccountId
  | .payment p => ⟨p.sourcePk, p.tokenId⟩
  | .stakeDelegation delegator _ => ⟨delegator, TokenId.default⟩
  | .createNewToken p => ⟨p.tokenOwnerPk, nextAvailableToken⟩
  | .createTokenAccount p => ⟨p.tokenOwnerPk, p.tokenId⟩
  | .mintTokens p => ⟨p.tokenOwnerPk, p.tokenId⟩

def receiver (nextAvailableToken : TokenId) : Body → AccountId
  | .payment p => ⟨p.receiverPk, p.tokenId⟩
  | .stakeDelegation _ newDelegate => ⟨newDelegate, TokenId.default⟩
  | .createNewToken p => ⟨p.tokenOwnerPk, nextAvailableToken⟩
  | .createTokenAccount p => ⟨p.receiverPk, p.tokenId⟩
  | .mintTokens p => ⟨p.receiverPk, p.tokenId⟩

end Body

namespace SignedCommand

def fee (c : SignedCommand) : Fee := c.payload.common.fee
def feeToken (c : SignedCommand) : TokenId := c.payload.common.feeToken
def feePayerPk (c : SignedCommand) : PublicKey := c.payload.common.feePayerPk
def feePayer (c : SignedCommand) : AccountId := ⟨c.payload.common.feePayerPk, c.payload.common.feeToken⟩
def nonce (c : SignedCommand) : AccountNonce := c.payload.common.nonce
def validUntil (c : SignedCommand) : GlobalSlot := c.payload.common.validUntil
def sourcePk (c : SignedCommand) : PublicKey := c.payload.body.sourcePk
def receiverPk (c : SignedCommand) : PublicKey := c.payload.body.receiverPk
def token (c : SignedCommand) : TokenId := c.payload.body.token

def source (nextAvailableToken : TokenId) (c : SignedCommand) : AccountId :=
  c.payload.body.source nextAvailableToken

def receiver (nextAvailableToken : TokenId) (c : SignedCommand) : AccountId :=
  c.payload.body.receiver nextAvailableToken

def checkTokens (c : SignedCommand) : Bool :=
  c.feeToken ≠ TokenId.invalid &&
    match c.payload.body with
    | .payment p => p.tokenId ≠ TokenId.invalid
    | .stakeDelegation _ _ => true
    | .createNewToken _ => c.feeToken = TokenId.default
    | .createTokenAccount p =>
      c.feeToken = TokenId.default && !(p.tokenId = TokenId.default && p.accountDisabled)
    | .mintTokens p => p.tokenId ≠ TokenId.invalid && p.tokenId ≠ TokenId.default

end SignedCommand

/-! ## Snapp commands -/

inductive Sgn where
  | pos
  | neg
deriving DecidableEq, Encodable

structure SignedAmount where
  magnitude : Amount
  sgn : Sgn
deriving DecidableEq, Encodable

namespace SignedAmount

def zero : SignedAmount := ⟨0, .pos⟩

def add (x y : SignedAmount) : Option SignedAmount :=
  match x.sgn, y.sgn with
  | .neg, .neg => (Currency.add x.magnitude y.magnitude).map fun m => ⟨m, .neg⟩
  | .pos, .pos => (Currency.add x.magnitude y.magnitude).map fun m => ⟨m, .pos⟩
  | .pos, .neg | .neg, .pos =>
    if x.magnitude < y.magnitude then some ⟨y.magnitude - x.magnitude, y.sgn⟩
    else if y.magnitude < x.magnitude then some ⟨x.magnitude - y.magnitude, x.sgn⟩
    else some zero

def isNonPos (x : SignedAmount) : Bool := x.magnitude = 0 || x.sgn = .neg

end SignedAmount

/-- `self_predicate.nonce` of a snapp predicate. -/
inductive NonceCheck where
  | ignore
  | check (lower upper : AccountNonce)
deriving DecidableEq, Encodable

structure PartyBody where
  pk : PublicKey
  delta : SignedAmount
deriving DecidableEq, Encodable

structure Party (predicate : Type) where
  body : PartyBody
  predicate : predicate
deriving DecidableEq, Encodable

structure OtherFeePayer where
  pk : PublicKey
  tokenId : TokenId
  nonce : AccountNonce
  fee : Fee
deriving DecidableEq, Encodable

structure SnappInner (one two : Type) where
  tokenId : TokenId
  feePayment : Option OtherFeePayer
  one : one
  two : two
deriving DecidableEq, Encodable

abbrev ProvedParty := Party NonceCheck
abbrev SignedParty := Party AccountNonce
abbrev EmptyParty := Party Unit

inductive SnappCommand where
  | provedEmpty (r : SnappInner ProvedParty (Option EmptyParty))
  | provedSigned (r : SnappInner ProvedParty SignedParty)
  | provedProved (r : SnappInner ProvedParty ProvedParty)
  | signedSigned (r : SnappInner SignedParty SignedParty)
  | signedEmpty (r : SnappInner SignedParty (Option EmptyParty))
deriving DecidableEq, Encodable

namespace SnappCommand

def tokenId : SnappCommand → TokenId
  | .provedEmpty r | .signedEmpty r => r.tokenId
  | .provedSigned r => r.tokenId
  | .provedProved r => r.tokenId
  | .signedSigned r => r.tokenId

def feePayment : SnappCommand → Option OtherFeePayer
  | .provedEmpty r | .signedEmpty r => r.feePayment
  | .provedSigned r => r.feePayment
  | .provedProved r => r.feePayment
  | .signedSigned r => r.feePayment

/-- The bodies of the parties, in order. -/
def bodies : SnappCommand → PartyBody × Option PartyBody
  | .provedEmpty r => (r.one.body, r.two.map (·.body))
  | .signedEmpty r => (r.one.body, r.two.map (·.body))
  | .provedSigned r => (r.one.body, some r.two.body)
  | .provedProved r => (r.one.body, some r.two.body)
  | .signedSigned r => (r.one.body, some r.two.body)

def feeToken (t : SnappCommand) : TokenId :=
  match t.feePayment with
  | some x => x.tokenId
  | none => t.tokenId

def checkTokens (t : SnappCommand) : Bool :=
  (match t.feePayment with
    | none => true
    | some x => x.tokenId ≠ TokenId.invalid) && t.tokenId ≠ TokenId.invalid

def nativeExcessExn (t : SnappCommand) : Except String (AccountId × Amount) :=
  match t.bodies with
  | (one, none) =>
    if one.delta.isNonPos then .ok (⟨one.pk, t.tokenId⟩, one.delta.magnitude)
    else .error "Assert_failure"
  | (one, some two) =>
    match SignedAmount.add one.delta two.delta with
    | none => .error "Option.value_exn None"
    | some x =>
      if x.isNonPos then
        let pk := if one.delta.isNonPos then one.pk else two.pk
        .ok (⟨pk, t.tokenId⟩, x.magnitude)
      else .error "Assert_failure"

def feePayer (t : SnappCommand) : Except String AccountId :=
  match t.feePayment with
  | some p => .ok ⟨p.pk, p.tokenId⟩
  | none => t.nativeExcessExn.map (·.1)

def feeExn (t : SnappCommand) : Except String Fee := do
  let (_, excess) ← t.nativeExcessExn
  match t.feePayment with
  | some p => .ok p.fee
  | none => .ok excess

/-- The nonce a party fixes, when the party pays. -/
def partyNonce {p : Type} (nonce : p → Option AccountNonce) (x : Party p) : Option AccountNonce :=
  match x.body.delta.sgn with
  | .pos => none
  | .neg => nonce x.predicate

/-- The nonce a snapp predicate fixes. -/
def predicateNonce : NonceCheck → Option AccountNonce
  | .ignore => none
  | .check lower upper => if lower = upper then some lower else none

def nonce (t : SnappCommand) : Option AccountNonce :=
  match t.feePayment with
  | some x => some x.nonce
  | none =>
    match t with
    | .provedProved r => partyNonce predicateNonce r.one <|> partyNonce predicateNonce r.two
    | .provedSigned r => partyNonce predicateNonce r.one <|> partyNonce some r.two
    | .provedEmpty r => partyNonce predicateNonce r.one
    | .signedSigned r => partyNonce some r.one <|> partyNonce some r.two
    | .signedEmpty r => partyNonce some r.one

end SnappCommand

/-! ## User commands -/

inductive UserCommand where
  | signedCommand (c : SignedCommand)
  | snappCommand (c : SnappCommand)
deriving DecidableEq, Encodable

namespace UserCommand

def feeExn : UserCommand → Except String Fee
  | .signedCommand x => .ok x.fee
  | .snappCommand x => x.feeExn

def feePayer : UserCommand → Except String AccountId
  | .signedCommand x => .ok x.feePayer
  | .snappCommand x => x.feePayer

def nonceExn : UserCommand → Except String AccountNonce
  | .signedCommand x => .ok x.nonce
  | .snappCommand x =>
    match x.nonce with
    | some n => .ok n
    | none => .error "Option.value_exn None"

def feeToken : UserCommand → TokenId
  | .signedCommand x => x.feeToken
  | .snappCommand x => x.feeToken

def checkTokens : UserCommand → Bool
  | .signedCommand x => x.checkTokens
  | .snappCommand x => x.checkTokens

def validUntil : UserCommand → GlobalSlot
  | .signedCommand x => x.validUntil
  | .snappCommand _ => GlobalSlot.maxValue

end UserCommand

end Mina
