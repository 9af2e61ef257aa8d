/-
Rosetta's operations (`rosetta_models/*.ml`), and the amounts and token ids in
them (`rosetta_lib/amount_of.ml`, `operation_types.ml`,
`operation_statuses.ml`).

Of JSON there are the objects whose values are strings; the rest is `other`,
with what `Yojson.Safe.equal` does not tell apart as one value. A coin change
is kept as its JSON.
-/
import Mina.Rosetta.Numerals

namespace Mina.Rosetta

/-! ## Models -/

inductive Json where
  | assoc (fields : List (String × String))
  | other (value : String)
  deriving DecidableEq

/-- `Yojson.Safe.equal`: the order of the fields does not matter. -/
def Json.equal : Json → Json → Bool
  | .assoc xs, .assoc ys => xs.insertionSort (fun x y => x.1 ≤ y.1) = ys.insertionSort fun x y => x.1 ≤ y.1
  | .other x, .other y => x = y
  | _, _ => false

/-- `Option.equal` of it. -/
def Json.equalOption : Option Json → Option Json → Bool
  | some x, some y => x.equal y
  | none, none => true
  | _, _ => false

structure SubAccountIdentifier where
  address : String
  metadata : Option Json
  deriving DecidableEq

def SubAccountIdentifier.equalOption : Option SubAccountIdentifier → Option SubAccountIdentifier → Bool
  | some x, some y => x.address = y.address && Json.equalOption x.metadata y.metadata
  | none, none => true
  | _, _ => false

structure AccountIdentifier where
  address : String
  subAccount : Option SubAccountIdentifier
  metadata : Option Json
  deriving DecidableEq

def AccountIdentifier.equal (x y : AccountIdentifier) : Bool :=
  x.address = y.address && SubAccountIdentifier.equalOption x.subAccount y.subAccount &&
    Json.equalOption x.metadata y.metadata

structure Currency where
  symbol : String
  decimals : Int
  metadata : Option Json
  deriving DecidableEq

structure Amount where
  value : String
  currency : Currency
  metadata : Option Json
  deriving DecidableEq

def Currency.equal (x y : Currency) : Bool :=
  x.symbol = y.symbol && x.decimals = y.decimals && Json.equalOption x.metadata y.metadata

def Amount.equal (x y : Amount) : Bool :=
  x.value = y.value && x.currency.equal y.currency && Json.equalOption x.metadata y.metadata

structure OperationIdentifier where
  index : Int
  networkIndex : Option Int
  deriving DecidableEq

structure Operation where
  operationIdentifier : OperationIdentifier
  relatedOperations : Option (List OperationIdentifier)
  type : String
  status : Option String
  account : Option AccountIdentifier
  amount : Option Amount
  coinChange : Option Json
  metadata : Option Json
  deriving DecidableEq

/-! ## Names -/

inductive OperationType where
  | accountCreationFeeViaPayment
  | accountCreationFeeViaFeePayer
  | paymentSourceDec
  | paymentReceiverInc
  | feePayment
  | delegateChange
  | createToken
  | mintTokens
  deriving DecidableEq

def OperationType.name : OperationType → String
  | .accountCreationFeeViaPayment => "account_creation_fee_via_payment"
  | .accountCreationFeeViaFeePayer => "account_creation_fee_via_fee_payer"
  | .paymentSourceDec => "payment_source_dec"
  | .paymentReceiverInc => "payment_receiver_inc"
  | .feePayment => "fee_payment"
  | .delegateChange => "delegate_change"
  | .createToken => "create_token"
  | .mintTokens => "mint_tokens"

inductive OperationStatus where
  | success
  | failed
  deriving DecidableEq

def OperationStatus.name : OperationStatus → String
  | .success => "Success"
  | .failed => "Failed"

/-! ## Amounts -/

namespace TokenId

def default : Uint64 := 1

def encode (tokenId : Uint64) : Json := .assoc [("token_id", tokenId.toString)]

/-- `decode` and `token_id_of_account`'s default. -/
def decode : Option Json → Option Uint64
  | none => some default
  | some (.assoc [(key, tokenId)]) => if key = "token_id" then (Uint64.ofString tokenId).toOption else none
  | some _ => none

end TokenId

def negated (t : Amount) : Exn Amount :=
  (Int64.ofString t.value).andThen fun value => .ok { t with value := Int64.toString (Int64.neg value) }

def mina (total : Uint64) : Amount where
  value := total.toString
  currency := { symbol := "MINA", decimals := 9, metadata := none }
  metadata := none

def token (tokenId total : Uint64) : Amount :=
  if tokenId = 1 then mina total
  else
    { value := total.toString
      currency := { symbol := "MINA+", decimals := 9, metadata := some (TokenId.encode tokenId) }
      metadata := none }

/-! ## Tokens and amounts -/

theorem OperationType.name_inj {k l : OperationType} (h : k.name = l.name) : k = l := by
  cases k <;> cases l <;> first | rfl | (revert h; decide)

theorem TokenId.decode_encode (n : Uint64) : TokenId.decode (some (TokenId.encode n)) = some n := by
  rw [encode, decode, if_pos rfl, Uint64.ofString_toString]
  rfl

theorem TokenId.encode_inj {m n : Uint64} (h : encode m = encode n) : m = n := by
  have hm := decode_encode m
  rw [h, decode_encode] at hm
  exact (Option.some.inj hm).symm

/-- The currency of a token. -/
def currencyOf (tokenId : Uint64) : Currency := (token tokenId 0).currency

theorem token_eq (tokenId total : Uint64) : token tokenId total = ⟨total.toString, currencyOf tokenId, none⟩ := by
  unfold currencyOf token
  split <;> rfl

theorem negated_ok {x y : Amount} : negated x = .ok y ↔
    ∃ i, Int64.ofString x.value = .ok i ∧ y = { x with value := Int64.toString (Int64.neg i) } := by
  rw [negated, Exn.andThen_eq_ok]
  constructor
  · intro h
    obtain ⟨i, hi, hy⟩ := h
    exact ⟨i, hi, (Except.ok.inj hy).symm⟩
  · intro h
    obtain ⟨i, hi, rfl⟩ := h
    exact ⟨i, hi, rfl⟩

/-- The amount of a token, taken away. -/
def taken (tokenId total : Uint64) : Amount := ⟨Int64.toString (-(total.val : Int)), currencyOf tokenId, none⟩

/-- Amounts from 2^63 are not negated. -/
theorem negated_token (tokenId total : Uint64) : negated (token tokenId total) =
    if total.val < 2 ^ 63 then .ok (taken tokenId total) else .error "Int64.of_string" := by
  rw [negated, token_eq, Uint64.toString, Int64.ofString_digits]
  split
  next hlt =>
    rw [Exn.andThen_ok, Int64.neg_of_lt (by rw [Fits64]; omega) (by omega)]
    rfl
  next => rfl

/-- What is taken away is given back. -/
theorem negated_taken {tokenId total : Uint64} (h : total.val < 2 ^ 63) :
    negated (taken tokenId total) = .ok (token tokenId total) := by
  have hfits : Fits64 (-(total.val : Int)) := by
    rw [Fits64]
    omega
  rw [negated, taken, Int64.ofString_toString hfits, Exn.andThen_ok, Int64.neg_of_lt hfits (by omega), Int.neg_neg,
    Int64.toString_natCast, token_eq]
  rfl

theorem Json.equal_refl (j : Json) : j.equal j = true := by
  cases j with
  | assoc fields => exact decide_eq_true rfl
  | other value => exact decide_eq_true rfl

theorem Json.equalOption_refl (j : Option Json) : Json.equalOption j j = true := by
  cases j with
  | none => rfl
  | some j => exact j.equal_refl

theorem Amount.equal_refl (x : Amount) : x.equal x = true := by
  simp [Amount.equal, Currency.equal, Json.equalOption_refl]

theorem AccountIdentifier.equal_refl (x : AccountIdentifier) : x.equal x = true := by
  have hsub : SubAccountIdentifier.equalOption x.subAccount x.subAccount = true := by
    cases x.subAccount with
    | none => rfl
    | some s => simp [SubAccountIdentifier.equalOption, Json.equalOption_refl]
  simp [AccountIdentifier.equal, hsub, Json.equalOption_refl]

/-- Nothing else is equal to one field. -/
theorem Json.equal_field {j : Json} {p : String × String} (h : j.equal (.assoc [p]) = true) : j = .assoc [p] := by
  cases j with
  | assoc fields =>
    have hsort := of_decide_eq_true h
    have hperm := List.perm_insertionSort (fun x y : String × String => x.1 ≤ y.1) fields
    rw [hsort] at hperm
    rw [List.perm_singleton.1 hperm.symm]
  | other value => cases h

end Mina.Rosetta
