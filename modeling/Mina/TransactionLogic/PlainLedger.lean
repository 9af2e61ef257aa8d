/-
A ledger as the list of its accounts by location: what the masks and the
database of `merkle_ledger` keep as tables of hashes, accounts and indexes.
Locations are allocated consecutively; removing the account at the last one
makes it available again, and removing any other leaves a hole.

`put` writes an account where the one of its id is, or after the last
account. Reads after it and its algebra are all that the results about
transactions need of a ledger.
-/
import Mina.Merkle.CompleteTree
import Mina.TransactionLogic.TransactionLogic

namespace Mina.TransactionLogic

/-- The hashes of the tree over the accounts. -/
class LedgerHash (F VK : Type) (Hash : outParam Type) where
  merge : Nat → Hash → Hash → Hash
  hashAccount : Account F VK → Hash
  emptyAccount : Hash

/-- The accounts by location. -/
structure Accounts (F VK : Type) where
  depth : Nat
  slots : List (Option (Account F VK))
deriving DecidableEq

variable {F VK Hash : Type}

namespace Accounts

/-! ## The operations -/

def get (l : Accounts F VK) (location : Location) : Option (Account F VK) := l.slots[location]?.join

/-- The slot holds the account of this id. -/
def holds (accountId : AccountId) (slot : Option (Account F VK)) : Bool :=
  slot.map Account.identifier = some accountId

def locationOfAccount (l : Accounts F VK) (accountId : AccountId) : Option Location :=
  l.slots.findIdx? (holds accountId)

def setAt (l : Accounts F VK) (location : Location) (a : Account F VK) : Accounts F VK :=
  { l with slots := l.slots.set location (some a) }

def push (l : Accounts F VK) (a : Account F VK) : Accounts F VK := { l with slots := l.slots ++ [some a] }

/-- The last location is available again. -/
def removeAt (l : Accounts F VK) (location : Location) : Accounts F VK :=
  if location + 1 = l.slots.length then { l with slots := l.slots.dropLast }
  else { l with slots := l.slots.set location none }

/-- The last locations first. -/
def remove (l : Accounts F VK) (keys : List AccountId) : Option (Accounts F VK) :=
  (keys.mapM l.locationOfAccount).map fun locations =>
    (locations.mergeSort fun i j => j ≤ i).foldl removeAt l

def merkleRoot [LedgerHash F VK Hash] (l : Accounts F VK) : Hash :=
  Merkle.root (LedgerHash.merge F VK)
    (fun a : Option (Account F VK) => a.elim (LedgerHash.emptyAccount F VK) LedgerHash.hashAccount) l.depth l.get

end Accounts

structure PlainLedger (F VK : Type) extends Accounts F VK where
  nextAvailableToken : TokenId
deriving DecidableEq

namespace PlainLedger

/-- A token that an account has is not available. -/
def updateNextAvailableToken (next token : TokenId) : TokenId := if next ≤ token then token.next else next

/-- The accounts after an account with this token has been stored. -/
def store (l : PlainLedger F VK) (accounts : Accounts F VK) (token : TokenId) : PlainLedger F VK :=
  ⟨accounts, updateNextAvailableToken l.nextAvailableToken token⟩

def getOrCreateAccount (accountId : AccountId) (a : Account F VK) :
    LedgerM (PlainLedger F VK) (AccountState × Location) := fun l =>
  match l.locationOfAccount accountId with
  | some location => (.ok (.existed, location), l)
  | none =>
    if l.slots.length = 2 ^ l.depth then (.error (.ledger "Db_error.Out_of_leaves"), l)
    else (.ok (.added, l.slots.length), l.store (l.push a) a.tokenId)

def getOrCreate [ChainHashes F] (accountId : AccountId) :
    LedgerM (PlainLedger F VK) (AccountState × Account F VK × Location) := fun l =>
  match (getOrCreateAccount accountId (Account.initialized accountId)).run l with
  | (.error e, l) => (.error e, l)
  | (.ok (action, location), l) =>
    match l.get location with
    | some account => (.ok (action, account, location), l)
    | none =>
      (.error (.ledger "get_or_create: Account was not found in the ledger after creation"), l)

def removeAccountsExn (keys : List AccountId) : LedgerM (PlainLedger F VK) Unit := fun l =>
  match l.remove keys with
  | none => (.error (.raised "Db_error.Account_location_not_found"), l)
  | some accounts => (.ok (), { l with toAccounts := accounts })

instance [ChainHashes F] [LedgerHash F VK Hash] : LedgerIntf (PlainLedger F VK) F VK Hash where
  get l := l.get
  locationOfAccount l := l.locationOfAccount
  set location a := .writes fun l => l.store (l.setAt location a) a.tokenId
  getOrCreate := getOrCreate
  getOrCreateAccount := getOrCreateAccount
  removeAccountsExn := removeAccountsExn
  merkleRoot l := l.merkleRoot
  nextAvailableToken := nextAvailableToken
  setNextAvailableToken token := .writes fun l => { l with nextAvailableToken := token }

end PlainLedger

namespace Accounts

/-! ## Accounts by id -/

def find (l : Accounts F VK) (accountId : AccountId) : Option (Account F VK) :=
  (l.locationOfAccount accountId).bind l.get

/-- The location of an id, as the transaction logic keeps it. -/
def located (l : Accounts F VK) (accountId : AccountId) : Located :=
  match l.locationOfAccount accountId with
  | some location => .existing location
  | none => .new

/-- The account is written where the one of its id is, or after the last. -/
def put (l : Accounts F VK) (a : Account F VK) : Accounts F VK :=
  match l.locationOfAccount a.identifier with
  | some location => l.setAt location a
  | none => l.push a

theorem holds_some {accountId : AccountId} {a : Account F VK} : holds accountId (some a) = true ↔ a.identifier = accountId := by
  simp [holds]

/-- A location is the index of the account it was found for. -/
theorem get_of_locationOfAccount {l : Accounts F VK} {accountId : AccountId} {i : Location}
    (h : l.locationOfAccount accountId = some i) :
    ∃ a, l.slots[i]? = some (some a) ∧ a.identifier = accountId ∧ i < l.slots.length := by
  obtain ⟨hi, hholds, -⟩ := List.findIdx?_eq_some_iff_getElem.1 h
  cases hslot : l.slots[i] with
  | none => rw [hslot] at hholds; cases hholds
  | some a =>
    rw [hslot, holds_some] at hholds
    exact ⟨a, by rw [List.getElem?_eq_getElem hi, hslot], hholds, hi⟩

theorem find_eq_some {l : Accounts F VK} {accountId : AccountId} {a : Account F VK} :
    l.find accountId = some a ↔ ∃ i, l.locationOfAccount accountId = some i ∧ l.get i = some a := by
  rw [find, Option.bind_eq_some_iff]

theorem find_eq_none {l : Accounts F VK} {accountId : AccountId} :
    l.find accountId = none ↔ l.locationOfAccount accountId = none := by
  cases h : l.locationOfAccount accountId with
  | none => simp [find, h]
  | some i =>
    obtain ⟨a, ha, -, -⟩ := get_of_locationOfAccount h
    simp [find, h, get, ha]

/-- An account is found under its own id. -/
theorem identifier_of_find {l : Accounts F VK} {accountId : AccountId} {a : Account F VK}
    (h : l.find accountId = some a) : a.identifier = accountId := by
  obtain ⟨i, hi, hget⟩ := find_eq_some.1 h
  obtain ⟨b, hb, hid, -⟩ := get_of_locationOfAccount hi
  rw [get, hb] at hget
  cases hget
  exact hid

theorem located_eq_new {l : Accounts F VK} {accountId : AccountId} :
    l.located accountId = .new ↔ l.find accountId = none := by
  rw [find_eq_none, located]
  cases l.locationOfAccount accountId <;> simp

section Account

variable [ChainHashes F]

/-- The account of an id, or the new one. -/
def account (l : Accounts F VK) (accountId : AccountId) : Account F VK :=
  (l.find accountId).getD (Account.create accountId 0)

theorem identifier_account (l : Accounts F VK) (accountId : AccountId) :
    (l.account accountId).identifier = accountId := by
  cases h : l.find accountId with
  | none => rw [account, h]; rfl
  | some a => rw [account, h]; exact identifier_of_find h

theorem account_of_find {l : Accounts F VK} {accountId : AccountId} {a : Account F VK}
    (h : l.find accountId = some a) : l.account accountId = a := by rw [account, h]; rfl

end Account

/-! ## Reads after writes -/

theorem locationOfAccount_setAt {l : Accounts F VK} {a : Account F VK} {i : Location}
    (h : l.locationOfAccount a.identifier = some i) (accountId : AccountId) :
    (l.setAt i a).locationOfAccount accountId = l.locationOfAccount accountId := by
  obtain ⟨b, hb, hid, hi⟩ := get_of_locationOfAccount h
  have hsame : (l.setAt i a).slots.map (Option.map Account.identifier) =
      l.slots.map (Option.map Account.identifier) := by
    apply List.ext_getElem?
    intro j
    rw [setAt, List.getElem?_map, List.getElem?_map]
    by_cases hij : i = j
    · subst hij
      rw [List.getElem?_set_self hi, hb]
      simp [hid]
    · rw [List.getElem?_set_ne hij]
  have hfind (s : List (Option (Account F VK))) : s.findIdx? (holds accountId) =
      (s.map (Option.map Account.identifier)).findIdx? fun x => x = some accountId := by
    rw [List.findIdx?_map]
    rfl
  rw [locationOfAccount, locationOfAccount, hfind, hsame, ← hfind]

theorem locationOfAccount_push (l : Accounts F VK) (a : Account F VK) (accountId : AccountId) :
    (l.push a).locationOfAccount accountId =
      (l.locationOfAccount accountId).or (if a.identifier = accountId then some l.slots.length else none) := by
  rw [locationOfAccount, push, List.findIdx?_append, locationOfAccount]
  congr 1
  simp only [List.findIdx?_singleton, holds, Option.map_some, Option.some.injEq, decide_eq_true_eq]
  split <;> simp

theorem get_setAt {l : Accounts F VK} {i : Location} (a : Account F VK) (hi : i < l.slots.length) (j : Location) :
    (l.setAt i a).get j = if j = i then some a else l.get j := by
  rw [get, setAt]
  split
  next hij => subst hij; rw [List.getElem?_set_self hi]; rfl
  next hij => rw [List.getElem?_set_ne fun h => hij h.symm, get]

theorem get_push (l : Accounts F VK) (a : Account F VK) (j : Location) :
    (l.push a).get j = if j = l.slots.length then some a else l.get j := by
  rw [get, push, get]
  rcases Nat.lt_trichotomy j l.slots.length with hlt | heq | hgt
  · rw [List.getElem?_append_left hlt, if_neg hlt.ne]
  · subst heq
    rw [List.getElem?_concat_length, if_pos rfl]
    rfl
  · rw [List.getElem?_eq_none (by simp only [List.length_append, List.length_singleton]; omega),
      List.getElem?_eq_none hgt.le, if_neg hgt.ne']

/-- A location found is one of the slots. -/
theorem location_lt {l : Accounts F VK} {accountId : AccountId} {i : Location}
    (h : l.locationOfAccount accountId = some i) : i < l.slots.length :=
  (get_of_locationOfAccount h).elim fun _ ha => ha.2.2

/-- Two ids have two locations. -/
theorem location_inj {l : Accounts F VK} {x y : AccountId} {i : Location} (hx : l.locationOfAccount x = some i)
    (hy : l.locationOfAccount y = some i) : x = y := by
  obtain ⟨a, ha, hax, -⟩ := get_of_locationOfAccount hx
  obtain ⟨b, hb, hby, -⟩ := get_of_locationOfAccount hy
  rw [ha] at hb
  cases hb
  rw [← hax, ← hby]

/-- What is found after an account has been put. -/
theorem find_put (l : Accounts F VK) (a : Account F VK) (accountId : AccountId) :
    (l.put a).find accountId = if accountId = a.identifier then some a else l.find accountId := by
  rw [put]
  cases h : l.locationOfAccount a.identifier with
  | some i =>
    have hi := location_lt h
    dsimp only
    rw [find, locationOfAccount_setAt h]
    split
    next heq => subst heq; rw [h, Option.bind_some, get_setAt a hi, if_pos rfl]
    next hne =>
      rw [find]
      cases hj : l.locationOfAccount accountId with
      | none => rfl
      | some j =>
        rw [Option.bind_some, Option.bind_some, get_setAt a hi, if_neg]
        rintro rfl
        exact hne (location_inj hj h)
  | none =>
    dsimp only
    rw [find, locationOfAccount_push]
    split
    next heq => subst heq; rw [h, Option.none_or, if_pos rfl, Option.bind_some, get_push, if_pos rfl]
    next hne =>
      rw [if_neg fun heq => hne heq.symm, Option.or_none, find]
      cases hj : l.locationOfAccount accountId with
      | none => rfl
      | some j => rw [Option.bind_some, Option.bind_some, get_push, if_neg (location_lt hj).ne]

/-- The ids that were there keep their locations. -/
theorem locationOfAccount_put {l : Accounts F VK} (a : Account F VK) {accountId : AccountId}
    (h : accountId ≠ a.identifier ∨ (l.find a.identifier).isSome) :
    (l.put a).locationOfAccount accountId = l.locationOfAccount accountId := by
  rw [put]
  cases ha : l.locationOfAccount a.identifier with
  | some i => exact locationOfAccount_setAt ha accountId
  | none =>
    dsimp only
    rcases h with h | h
    · rw [locationOfAccount_push, if_neg fun heq => h heq.symm, Option.or_none]
    · rw [find_eq_none.2 ha] at h
      cases h

/-! ## The algebra of writes -/

theorem put_of_location {l : Accounts F VK} {a : Account F VK} {i : Location}
    (h : l.locationOfAccount a.identifier = some i) : l.put a = l.setAt i a := by rw [put, h]

theorem put_of_new {l : Accounts F VK} {a : Account F VK} (h : l.find a.identifier = none) : l.put a = l.push a := by
  rw [put, find_eq_none.1 h]

theorem location_of_find {l : Accounts F VK} {accountId : AccountId} {a : Account F VK}
    (h : l.find accountId = some a) :
    ∃ i, l.locationOfAccount accountId = some i ∧ l.slots[i]? = some (some a) ∧ i < l.slots.length := by
  obtain ⟨i, hi, hget⟩ := find_eq_some.1 h
  obtain ⟨b, hb, -, hlt⟩ := get_of_locationOfAccount hi
  rw [get, hb] at hget
  exact ⟨i, hi, hb.trans (congrArg some hget), hlt⟩

/-- The second of two writes of one id stays. -/
theorem put_put {l : Accounts F VK} {a b : Account F VK} (h : a.identifier = b.identifier) :
    (l.put a).put b = l.put b := by
  cases ha : l.find a.identifier with
  | some c =>
    obtain ⟨i, hi, -, -⟩ := location_of_find ha
    have hb : (l.setAt i a).locationOfAccount b.identifier = some i := by
      rw [locationOfAccount_setAt hi, ← h, hi]
    rw [put_of_location hi, put_of_location hb, put_of_location (h ▸ hi), setAt, setAt, setAt, List.set_set]
  | none =>
    have hb : (l.push a).locationOfAccount b.identifier = some l.slots.length := by
      rw [locationOfAccount_push, ← h, find_eq_none.1 ha, Option.none_or, if_pos rfl]
    rw [put_of_new ha, put_of_location hb, put_of_new (h ▸ ha), setAt, push, push]
    simp

/-- Two writes commute, unless both create an account. -/
theorem put_comm {l : Accounts F VK} {a b : Account F VK} (h : a.identifier ≠ b.identifier)
    (ha : (l.find a.identifier).isSome) : (l.put a).put b = (l.put b).put a := by
  obtain ⟨c, hc⟩ := Option.isSome_iff_exists.1 ha
  obtain ⟨i, hi, -, hlt⟩ := location_of_find hc
  have hia : (l.put b).locationOfAccount a.identifier = some i := by rw [locationOfAccount_put b (.inl h), hi]
  rw [put_of_location hi, put_of_location hia]
  cases hb : l.find b.identifier with
  | some d =>
    obtain ⟨j, hj, -, -⟩ := location_of_find hb
    have hij : i ≠ j := by
      rintro rfl
      exact h (location_inj hi hj)
    rw [put_of_location (by rw [locationOfAccount_setAt hi, hj] : (l.setAt i a).locationOfAccount b.identifier = some j),
      put_of_location hj, setAt, setAt, setAt, setAt]
    simp only [List.set_comm (some a) (some b) hij]
  | none =>
    have hnew : (l.setAt i a).find b.identifier = none := by
      rw [find_eq_none, locationOfAccount_setAt hi, find_eq_none.1 hb]
    rw [put_of_new hnew, put_of_new hb, setAt, push, push, setAt]
    simp only [List.set_append_left _ _ hlt]

/-! ## Removal -/

@[simp] theorem remove_nil (l : Accounts F VK) : l.remove [] = some l := by simp [remove]

end Accounts

end Mina.TransactionLogic
