/-
Transactions as the construction interface hands them out
(`rosetta_lib/transaction.ml`): a command is rendered as one of five records,
which leave out what the kind of the command tells, and rebuilt from the one
that is there. An input of the random oracle is rendered as hex
(`Hex.Safe`).

The five records of both renderings are one structure. A field element is
known by its bits; it and the encoding of a signature are parameters.
-/
import Mina.Rosetta.UserCommandInfo
import Mina.RandomOracleInput.Coding

namespace Mina

open RandomOracleInput.Coding (Byte ofIntExn)

/-! ## Hex -/

namespace Hex

/-- `charify`, of four bits. -/
def charify (u4 : Nat) : Char := if u4 ≤ 9 then Char.ofNat (u4 + 48) else Char.ofNat (u4 - 10 + 65)

def toHex (data : List Byte) : String :=
  String.ofList (data.flatMap fun c => [charify ((c.val &&& 0xF0) >>> 4), charify (c.val &&& 0x0F)])

def toU4 (c : Char) : Nat :=
  if c.isDigit then c.toNat - 48
  else if c.isUpper then c.toNat - 65 + 10
  else c.toNat - 97 + 10

/-- The chunks of two characters. A letter after `F` may raise. -/
def ofChunks : List Char → Exn (Option (List Byte))
  | [] => .ok (some [])
  | [_] => .ok none
  | a :: b :: rest =>
    if a.isAlphanum && b.isAlphanum then
      (ofIntExn (toU4 a <<< 4 ||| toU4 b)).andThen fun c =>
        (ofChunks rest).andThen fun cs => .ok (cs.map fun cs => c :: cs)
    else .ok none

def ofHex (hex : String) : Exn (Option (List Byte)) := ofChunks hex.toList

end Hex

/-- `Coding2.serialize` -/
def RandomOracleInput.Coding2.serialize {F B : Type} (stringOfField : F → Exn (List Byte)) (pack : List B → F)
    (t : RandomOracleInput F B) : Exn (Rendered (List Byte)) :=
  (Coding.checkFields stringOfField t.fieldElements).andThen fun _ =>
    let r := serialize' t pack
    (Exn.mapList stringOfField r.prefixFields).andThen fun prefixFields =>
      (Exn.mapList stringOfField r.suffixFields).andThen fun suffixFields => .ok { prefixFields, suffixFields }

namespace Rosetta.Transaction

open RandomOracleInput

/-- `Field` and `Signature.Raw`. The bits of a field have the lowest one
first. -/
structure Encoding (F S : Type) where
  unpack : F → List Bool
  project : List Bool → F
  length_unpack : ∀ x, (unpack x).length = 255
  project_unpack : ∀ x, project (unpack x) = x
  encode : S → String
  decode : String → Option S
  decode_encode : ∀ s, decode (encode s) = some s

/-! ## Errors -/

/-- `Errors.Variant`, those of this module. -/
inductive Variant where
  | jsonParse (message : Option String)
  | operationsNotValid (reasons : List Reason)
  | unsupportedOperationForConstruction
  deriving DecidableEq

structure Errors where
  extraContext : Option String
  kind : Variant
  deriving DecidableEq

/-! ## Records -/

structure Unsigned (F : Type) where
  randomOracleInput : RandomOracleInput F Bool
  command : Partial
  nonce : Uint32
  deriving DecidableEq

structure Signed (S : Type) where
  command : Partial
  nonce : Uint32
  signature : S
  deriving DecidableEq

namespace Rendered

structure Payment where
  to_ : String
  from_ : String
  fee : Uint64
  token : Uint64
  nonce : Uint32
  memo : Option String
  amount : Uint64
  validUntil : Option Uint32

structure Delegation where
  delegator : String
  newDelegate : String
  fee : Uint64
  nonce : Uint32
  memo : Option String
  validUntil : Option Uint32

structure CreateToken where
  receiver : String
  disableNewAccounts : Bool
  fee : Uint64
  nonce : Uint32
  memo : Option String
  validUntil : Option Uint32

structure CreateTokenAccount where
  tokenOwner : String
  receiver : String
  token : Uint64
  accountDisabled : Bool
  fee : Uint64
  nonce : Uint32
  memo : Option String
  validUntil : Option Uint32

structure MintTokens where
  tokenOwner : String
  receiver : String
  token : Uint64
  amount : Uint64
  fee : Uint64
  nonce : Uint32
  memo : Option String
  validUntil : Option Uint32

/-- What `render_command` returns. -/
inductive Command where
  | payment (payment : Payment)
  | delegation (delegation : Delegation)
  | createToken (createToken : CreateToken)
  | createTokenAccount (createTokenAccount : CreateTokenAccount)
  | mintTokens (mintTokens : MintTokens)

/-- The records of a rendered transaction. -/
structure Commands where
  payment : Option Payment
  stakeDelegation : Option Delegation
  createToken : Option CreateToken
  createTokenAccount : Option CreateTokenAccount
  mintTokens : Option MintTokens

def Commands.empty : Commands := ⟨none, none, none, none, none⟩

def Command.commands : Command → Commands
  | .payment r => { Commands.empty with payment := some r }
  | .delegation r => { Commands.empty with stakeDelegation := some r }
  | .createToken r => { Commands.empty with createToken := some r }
  | .createTokenAccount r => { Commands.empty with createTokenAccount := some r }
  | .mintTokens r => { Commands.empty with mintTokens := some r }

end Rendered

structure Unsigned.Rendered extends Rendered.Commands where
  randomOracleInput : String
  signerInput : Coding2.Rendered String

structure Signed.Rendered extends Rendered.Commands where
  signature : String

/-! ## Rendering -/

section

variable {F S : Type} (e : Encoding F S)

def stringOfField (field : F) : Exn (List Byte) := Coding.stringOfField (e.unpack field).reverse

def fieldOfString (s : List Byte) : Except Coding.ParseError F :=
  (Coding.fieldOfString 255 s).map fun bits => e.project bits.reverse

/-- The amount of a command that has to have one. -/
def amountOf (command : Partial) : Except Errors Uint64 :=
  match command.amount with
  | some amount => .ok amount
  | none => .error ⟨none, .operationsNotValid [.amountNotSome]⟩

def renderCommand (nonce : Uint32) (command : Partial) : Except Errors Rendered.Command :=
  match command.kind with
  | .payment => do
    let amount ← amountOf command
    return .payment {
      to_ := command.receiver
      from_ := command.source
      fee := command.fee
      nonce
      token := command.token
      memo := command.memo
      amount
      validUntil := command.validUntil }
  | .delegation =>
    .ok (.delegation {
      delegator := command.source
      newDelegate := command.receiver
      fee := command.fee
      nonce
      memo := command.memo
      validUntil := command.validUntil })
  | .createToken =>
    .ok (.createToken {
      receiver := command.receiver
      disableNewAccounts := false
      fee := command.fee
      nonce
      memo := command.memo
      validUntil := command.validUntil })
  | .createTokenAccount =>
    .ok (.createTokenAccount {
      tokenOwner := command.source
      receiver := command.receiver
      token := command.token
      accountDisabled := false
      fee := command.fee
      nonce
      memo := command.memo
      validUntil := command.validUntil })
  | .mintTokens => do
    let amount ← amountOf command
    return .mintTokens {
      tokenOwner := command.source
      receiver := command.receiver
      token := command.token
      amount
      fee := command.fee
      nonce
      memo := command.memo
      validUntil := command.validUntil }

def Unsigned.render (t : Unsigned F) : Exn (Except Errors Unsigned.Rendered) :=
  (Coding.serialize (stringOfField e) id id t.randomOracleInput).andThen fun randomOracleInput =>
    (Coding2.serialize (stringOfField e) e.project t.randomOracleInput).andThen fun signerInput =>
      .ok ((renderCommand t.nonce t.command).map fun command => {
        command.commands with
        randomOracleInput := Hex.toHex randomOracleInput
        signerInput := signerInput.map Hex.toHex })

def Signed.render (t : Signed S) : Except Errors Signed.Rendered :=
  (renderCommand t.nonce t.command).map fun command =>
    { command.commands with signature := e.encode t.signature }

/-! ## Reading -/

def ofRenderedPayment (r : Rendered.Payment) : Partial where
  receiver := r.to_
  source := r.from_
  kind := .payment
  feePayer := r.from_
  feeToken := r.token
  token := r.token
  fee := r.fee
  amount := some r.amount
  validUntil := r.validUntil
  memo := r.memo

def ofRenderedDelegation (r : Rendered.Delegation) : Partial where
  receiver := r.newDelegate
  source := r.delegator
  kind := .delegation
  feePayer := r.delegator
  feeToken := TokenId.default
  token := TokenId.default
  fee := r.fee
  amount := none
  validUntil := r.validUntil
  memo := r.memo

def ofRenderedCreateToken (r : Rendered.CreateToken) : Partial where
  receiver := r.receiver
  source := r.receiver
  kind := .createToken
  feePayer := r.receiver
  feeToken := TokenId.default
  token := TokenId.default
  fee := r.fee
  amount := none
  validUntil := r.validUntil
  memo := r.memo

def ofRenderedCreateTokenAccount (r : Rendered.CreateTokenAccount) : Partial where
  receiver := r.receiver
  source := r.tokenOwner
  kind := .createToken
  feePayer := r.receiver
  feeToken := TokenId.default
  token := r.token
  fee := r.fee
  amount := none
  validUntil := r.validUntil
  memo := r.memo

def ofRenderedMintTokens (r : Rendered.MintTokens) : Partial where
  receiver := r.receiver
  source := r.tokenOwner
  kind := .mintTokens
  feePayer := r.tokenOwner
  feeToken := TokenId.default
  token := r.token
  fee := r.fee
  amount := some r.amount
  validUntil := r.validUntil
  memo := r.memo

/-- The command and the nonce, if exactly one record is there. -/
def Rendered.Commands.read (r : Rendered.Commands) : Option (Partial × Uint32) :=
  match r.payment, r.stakeDelegation, r.createToken, r.createTokenAccount, r.mintTokens with
  | some payment, none, none, none, none => some (ofRenderedPayment payment, payment.nonce)
  | none, some delegation, none, none, none => some (ofRenderedDelegation delegation, delegation.nonce)
  | none, none, some createToken, none, none => some (ofRenderedCreateToken createToken, createToken.nonce)
  | none, none, none, some createTokenAccount, none =>
    some (ofRenderedCreateTokenAccount createTokenAccount, createTokenAccount.nonce)
  | none, none, none, none, some mintTokens => some (ofRenderedMintTokens mintTokens, mintTokens.nonce)
  | _, _, _, _, _ => none

/-- An input that cannot be parsed. -/
def inputError (parseContext : String) : Errors :=
  ⟨some ("Random oracle input deserialization: " ++ parseContext), .jsonParse none⟩

def Unsigned.ofRendered (r : Unsigned.Rendered) : Exn (Except Errors (Unsigned F)) :=
  (Hex.ofHex r.randomOracleInput).andThen fun bytes =>
    (Exn.valueExn bytes).andThen fun bytes =>
      match Coding.deserialize (fieldOfString e) id bytes with
      | .error .expectedEof => .ok (.error (inputError "Extra bytes at the end of input"))
      | .error .unexpectedEof => .ok (.error (inputError "Unexpected end of bytes stream"))
      | .error (.raised error) => .error error
      | .ok randomOracleInput =>
        match r.read with
        | some (command, nonce) => .ok (.ok { randomOracleInput, command, nonce })
        | none => .ok (.error ⟨some "Unsigned transaction un-rendering", .unsupportedOperationForConstruction⟩)

def Signed.ofRendered (r : Signed.Rendered) : Except Errors (Signed S) :=
  match e.decode r.signature with
  | none => .error ⟨some "Signed transaction un-rendering", .unsupportedOperationForConstruction⟩
  | some signature =>
    match r.read with
    | some (command, nonce) => .ok { command, nonce, signature }
    | none => .error ⟨some "Signed transaction un-rendering", .unsupportedOperationForConstruction⟩

end

end Rosetta.Transaction

end Mina
