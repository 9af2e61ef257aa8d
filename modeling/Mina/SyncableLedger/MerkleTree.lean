/-
What `syncable_ledger` needs of a ledger: `merkle_address.ml`, and of
`merkle_ledger` (`database.ml`, `util.ml`) the operations of `Syncable_intf`
that it calls.

An address is the path from the root. The account at a leaf's address is kept
under the address's number (`to_int`), which orders the leaves as the
addresses are ordered. The database keeps the hashes of the inner nodes and
computes those above the accounts that it sets anew; here they are computed
from the accounts. What it keeps of account ids and tokens is left out.
-/
import Mina.Base.Exn
import Mina.Merkle.CompleteTree

namespace Mina.SyncableLedger

/-! ## Addresses -/

inductive Direction where
  | left
  | right
deriving DecidableEq

abbrev Addr := List Direction

namespace Addr

def depth (path : Addr) : Nat := path.length

def height (ledgerDepth : Nat) (path : Addr) : Nat := ledgerDepth - depth path

def isLeaf (ledgerDepth : Nat) (path : Addr) : Bool := depth path ≥ ledgerDepth

def child (ledgerDepth : Nat) (path : Addr) (dir : Direction) : Exn Addr :=
  if isLeaf ledgerDepth path then .error "The address length cannot be greater than depth" else .ok (path ++ [dir])

def bit : Direction → Nat
  | .left => 0
  | .right => 1

def toInt (path : Addr) : Nat := path.foldl (fun acc dir => 2 * acc + bit dir) 0

def root : Addr := []

/-- The number of the first leaf of a subtree. -/
def first (ledgerDepth : Nat) (path : Addr) : Nat := toInt path * 2 ^ height ledgerDepth path

/-- `next` of a leaf's address. -/
def next (ledgerDepth : Nat) (i : Nat) : Option Nat := if i + 1 < 2 ^ ledgerDepth then some (i + 1) else none

/-- `Range.subtree_range_seq`. -/
def subtreeRange (ledgerDepth : Nat) (path : Addr) : List Nat :=
  List.range' (first ledgerDepth path) (2 ^ height ledgerDepth path)

end Addr

/-! ## Ledgers -/

/-- `Inputs.Hash`. -/
structure Hashing (Hash Account : Type) where
  merge : Nat → Hash → Hash → Hash
  hashAccount : Account → Hash
  emptyAccount : Hash

variable {Hash Account : Type} (P : Hashing Hash Account)

/-- The hash of a leaf. -/
def Hashing.slot : Option Account → Hash
  | none => P.emptyAccount
  | some account => P.hashAccount account

structure MT (Account : Type) where
  depth : Nat
  get : Nat → Option Account
  lastFilled : Option Nat

namespace MT

variable (t : MT Account)

/-- The hash of the subtree at an address. -/
def hashAt (addr : Addr) : Hash :=
  Merkle.root P.merge P.slot (Addr.height t.depth addr) fun i => t.get (Addr.first t.depth addr + i)

def getInnerHashAtAddrExn (addr : Addr) : Exn Hash := Exn.assert (addr.depth ≤ t.depth) (.ok (hashAt P t addr))

def merkleRoot : Hash := hashAt P t Addr.root

def numAccounts : Nat :=
  match t.lastFilled with
  | none => 0
  | some last => last + 1

def getAllAccountsRootedAtExn (addr : Addr) : Exn (List (Nat × Account)) :=
  Exn.assert (addr.depth ≤ t.depth)
    (.ok ((Addr.subtreeRange t.depth addr).filterMap fun i => (t.get i).map fun account => (i, account)))

/-- `set_raw_addresses`: the last index with an account. -/
def setRawAddresses (addresses : List Nat) : Option Nat :=
  match addresses with
  | [] => t.lastFilled
  | address :: rest =>
    let foreignLastIndex := rest.foldl max address
    some ((t.lastFilled.map fun maxIndex => max maxIndex foreignLastIndex).getD foreignLastIndex)

def setBatchAccounts (addressesAndAccounts : List (Nat × Account)) : MT Account :=
  { t with
    lastFilled := setRawAddresses t (addressesAndAccounts.map (·.1))
    get := addressesAndAccounts.foldl (fun get p => Function.update get p.1 (some p.2)) t.get }

def setAllAccountsRootedAtExn (addr : Addr) (accounts : List Account) : Exn (MT Account) :=
  let addresses := (Addr.subtreeRange t.depth addr).take accounts.length
  Exn.assert (addr.depth ≤ t.depth)
    (if addresses.length = accounts.length then .ok (setBatchAccounts t (addresses.zip accounts))
      else .error "zip_exn: lists have different lengths")

def makeSpaceFor (_ : Nat) : MT Account := t

end MT

end Mina.SyncableLedger
