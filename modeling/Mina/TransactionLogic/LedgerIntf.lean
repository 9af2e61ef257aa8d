/-
The ledger that transactions run on (`Ledger_intf` of
`mina_base/transaction_logic.ml`) and the computations over it. The ledger
is mutable, so a computation takes it and gives it back, also when it ends
in an error: what was written before the error stays written.

A location is the index of an account among the leaves. The errors are the
`Or_error.t`s of the source with the values their texts show; an exception
of the source is one of them, `raised` or `rejected`.
-/
import Mina.Account.ApplyBody

namespace Mina.TransactionLogic

/-! ## Errors -/

inductive TransactionError where
  /-- `Ledger.apply_transaction: ` and the text. -/
  | applyTransaction (text : String)
  | accountCreationFee (fee : Fee) (amount : Amount)
  | nonce (accountNonce txnNonce : AccountNonce)
  | expired (currentGlobalSlot validUntil : GlobalSlot)
  | snappAccount (accountId : AccountId)
  | feePayerNew
  | feePayerSigner
  | feeToken
  | feeTokens
  | disabledDefaultToken
  | timing (e : TimingError)
  | rejected (failure : Failure)
  /-- An error of the ledger underneath. -/
  | ledger (text : String)
  | raised (text : String)
deriving DecidableEq

/-! ## Computations -/

abbrev LedgerM (L α : Type) := ExceptT TransactionError (StateM L) α

namespace LedgerM

variable {L α β : Type}

def run (x : LedgerM L α) (l : L) : Except TransactionError α × L := x l

/-- A computation that only reads the ledger. -/
def reads (f : L → α) : LedgerM L α := fun l => (.ok (f l), l)

/-- A computation that only writes to the ledger. -/
def writes (f : L → L) : LedgerM L Unit := fun l => (.ok (), f l)

def orRaise (x : Except TransactionError α) : LedgerM L α := fun l => (x, l)

theorem run_bind (x : LedgerM L α) (f : α → LedgerM L β) (l : L) :
    (x >>= f).run l = match x.run l with
      | (.ok a, l') => (f a).run l'
      | (.error e, l') => (.error e, l') := by
  change (ExceptT.bind x f : LedgerM L β) l = _
  simp only [ExceptT.bind, ExceptT.mk, bind, StateT.bind, ExceptT.bindCont, run]
  cases x l with
  | mk r l' => cases r <;> rfl

/-- A computation in sequence ends well when both parts do. -/
theorem run_bind_eq_ok {x : LedgerM L α} {f : α → LedgerM L β} {l l' : L} {b : β} :
    (x >>= f).run l = (.ok b, l') ↔ ∃ a l₁, x.run l = (.ok a, l₁) ∧ (f a).run l₁ = (.ok b, l') := by
  rw [run_bind]
  constructor
  · intro h
    split at h
    next a l₁ hx => exact ⟨a, l₁, hx, h⟩
    next => cases h
  · rintro ⟨a, l₁, hx, hf⟩
    rw [hx]
    exact hf

@[simp] theorem run_pure (a : α) (l : L) : (pure a : LedgerM L α).run l = (.ok a, l) := rfl

@[simp] theorem run_reads (f : L → α) (l : L) : (reads f).run l = (.ok (f l), l) := rfl

@[simp] theorem run_writes (f : L → L) (l : L) : (writes f).run l = (.ok (), f l) := rfl

@[simp] theorem run_orRaise (x : Except TransactionError α) (l : L) : (orRaise x).run l = (x, l) := rfl

theorem pure_eq_ok {a b : α} {l l' : L} : (pure a : LedgerM L α).run l = (.ok b, l') ↔ a = b ∧ l = l' := by
  rw [run_pure, Prod.mk.injEq, Except.ok.injEq]

theorem reads_bind_eq_ok {f : L → α} {k : α → LedgerM L β} {l l' : L} {b : β} :
    (reads f >>= k).run l = (.ok b, l') ↔ (k (f l)).run l = (.ok b, l') := by rw [run_bind, run_reads]

theorem orRaise_bind_eq_ok {x : Except TransactionError α} {k : α → LedgerM L β} {l l' : L} {b : β} :
    (orRaise x >>= k).run l = (.ok b, l') ↔ ∃ a, x = .ok a ∧ (k a).run l = (.ok b, l') := by
  rw [run_bind, run_orRaise]
  cases x <;> simp

end LedgerM

/-! ## The interface -/

inductive AccountState where
  | added
  | existed
deriving DecidableEq

abbrev Location := Nat

/-- `Ledger_intf`. -/
class LedgerIntf (L : Type) (F VK Hash : outParam Type) where
  get : L → Location → Option (Account F VK)
  locationOfAccount : L → AccountId → Option Location
  set : Location → Account F VK → LedgerM L Unit
  getOrCreate : AccountId → LedgerM L (AccountState × Account F VK × Location)
  getOrCreateAccount : AccountId → Account F VK → LedgerM L (AccountState × Location)
  removeAccountsExn : List AccountId → LedgerM L Unit
  merkleRoot : L → Hash
  nextAvailableToken : L → TokenId
  setNextAvailableToken : TokenId → LedgerM L Unit

end Mina.TransactionLogic
