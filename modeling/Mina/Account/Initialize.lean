/-
New accounts (`create`, `initialize` and `identifier` of
`mina_base/account.ml`, with the defaults of `permissions.ml` and
`token_permissions.ml`). The hashes that a new account starts from are
parameters, and so is the hash that a command adds to a receipt chain
(`receipt.ml`).
-/
import Mina.Account.Account

namespace Mina

/-- `Receipt.Chain_hash.empty` and `cons`, and `State_hash.dummy`. -/
class ChainHashes (F : Type) where
  receiptChainEmpty : F
  receiptChainCons : SignedCommandPayload → F → F
  stateHashDummy : F

def Permissions.userDefault : Permissions :=
  { stake := true
    editState := .signature
    send := .signature
    receive := .none
    setDelegate := .signature
    setPermissions := .signature
    setVerificationKey := .signature }

def TokenPermissions.default : TokenPermissions := .notOwned false

namespace Account

variable {F VK : Type}

def identifier (a : Account F VK) : AccountId := ⟨a.publicKey, a.tokenId⟩

/-- An account of the default token is its own delegate, no other has one. -/
def create [ChainHashes F] (accountId : AccountId) (balance : Balance) : Account F VK where
  publicKey := accountId.publicKey
  tokenId := accountId.tokenId
  tokenPermissions := TokenPermissions.default
  balance
  nonce := 0
  receiptChainHash := ChainHashes.receiptChainEmpty
  delegate := if accountId.tokenId = TokenId.default then some accountId.publicKey else none
  votingFor := ChainHashes.stateHashDummy
  timing := .untimed
  permissions := Permissions.userDefault
  snapp := none

/-- `Account.initialize`, whose name is a keyword here. -/
def initialized [ChainHashes F] (accountId : AccountId) : Account F VK := create accountId 0

@[simp] theorem identifier_create [ChainHashes F] (accountId : AccountId) (balance : Balance) :
    (create accountId balance : Account F VK).identifier = accountId := rfl

@[simp] theorem identifier_initialized [ChainHashes F] (accountId : AccountId) :
    (initialized accountId : Account F VK).identifier = accountId := rfl

end Account

end Mina
