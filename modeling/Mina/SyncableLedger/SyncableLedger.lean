/-
Ledger sync (`syncable_ledger.ml`): the responder that answers queries from
its ledger, and the syncer that asks them.

`Make` is over an account subtree height and a ledger. Root hashes are hashes
(`Root_hash.to_hash` changes nothing). The pipe `queries` is the list of what
was written to it. An answer is handled at once: no other event comes in while
the trust system records what the peer did, and of that record its action is
kept. When a new goal is set, the old `validity_listener` is filled for its
readers and forgotten.
-/
import Mina.SyncableLedger.MerkleTree

namespace Mina.SyncableLedger

inductive Query where
  | whatChildHashes (addr : Addr)
  | whatContents (addr : Addr)
  | numAccounts
deriving DecidableEq

inductive Answer (Hash Account : Type) where
  | childHashesAre (lh rh : Hash)
  | contentsAre (accounts : List Account)
  | numAccounts (count : Nat) (contentRoot : Hash)

/-- The trust system's `Actions`. -/
inductive Action where
  | fulfilledRequest
  | sentBadHash
  | violatedProtocol
deriving DecidableEq

variable {Hash Account D : Type} (P : Hashing Hash Account) (accountSubtreeHeight : Nat)

/-- `Int.ceil_log2`. -/
def ceilLog2 (n : Nat) : Exn Nat := if 0 < n then .ok (Nat.clog 2 n) else .error "Int.ceil_log2 got invalid input"

/-! ## The responder -/

namespace Responder

/-- Are the leaves one after the other? -/
def isCompact (ledgerDepth : Nat) (firstAddress : Nat) (restAddress : List Nat) : Bool :=
  (restAddress.foldl (fun acc actualAddress =>
      if acc.2 ∧ acc.1 = some actualAddress then (Addr.next ledgerDepth actualAddress, true) else (acc.1, false))
    (Addr.next ledgerDepth firstAddress, true)).2

/-- The answer, or nothing if the query is against the protocol. -/
def answerQuery (mt : MT Account) : Query → Exn (Option (Answer Hash Account))
  | .whatChildHashes a =>
    let hashes := (Addr.child mt.depth a .left).andThen fun lchild =>
      (Addr.child mt.depth a .right).andThen fun rchild =>
        (mt.getInnerHashAtAddrExn P lchild).andThen fun lh =>
          (mt.getInnerHashAtAddrExn P rchild).andThen fun rh => .ok (Answer.childHashesAre lh rh)
    match hashes with
    | .ok answer => .ok (some answer)
    | .error _ => .ok none
  | .whatContents a =>
    if Addr.height mt.depth a > accountSubtreeHeight then .ok none
    else
      (mt.getAllAccountsRootedAtExn a).andThen fun accounts =>
        let addressesAndAccounts := accounts.insertionSort fun p q => p.1 ≤ q.1
        match addressesAndAccounts.map (·.1) with
        | [] => .ok none
        | firstAddress :: restAddress =>
          Exn.assert (isCompact mt.depth firstAddress restAddress)
            (.ok (some (.contentsAre (addressesAndAccounts.map (·.2)))))
  | .numAccounts =>
    let len := mt.numAccounts
    (ceilLog2 len).andThen fun height =>
      let contentRootAddr := List.replicate (mt.depth - height) Direction.left
      (mt.getInnerHashAtAddrExn P contentRootAddr).andThen fun h => .ok (some (.numAccounts len h))

end Responder

/-! ## The syncer -/

/-- What fills the `validity_listener`. -/
inductive Validity (Hash : Type) where
  | ok
  | targetChanged (old : Option Hash) (new : Hash)

structure T (Hash Account D : Type) where
  desiredRoot : Option Hash
  auxiliaryData : Option D
  tree : MT Account
  queries : List (Hash × Query)
  /-- Addresses we are waiting for the children of, and the expected hash of
  the node with the address. -/
  waitingParents : Addr → Option Hash
  waitingContent : Addr → Option Hash
  /-- Empty until it is filled. -/
  validityListener : Option (Validity Hash)

def create (mt : MT Account) : T Hash Account D where
  desiredRoot := none
  auxiliaryData := none
  tree := mt
  queries := []
  waitingParents _ := none
  waitingContent _ := none
  validityListener := none

variable [DecidableEq Hash] (t : T Hash Account D)

def desiredRootExn : Exn Hash := Exn.valueExn t.desiredRoot

/-- `Addr.Table.add_exn`. -/
def addExn (table : Addr → Option Hash) (key : Addr) (data : Hash) : Exn (Addr → Option Hash) :=
  match table key with
  | some _ => .error "Hashtbl.add_exn got key already present"
  | none => .ok (Function.update table key (some data))

def expectChildren (parentAddr : Addr) (expected : Hash) : Exn (T Hash Account D) :=
  (addExn t.waitingParents parentAddr expected).andThen fun waitingParents => .ok { t with waitingParents }

def expectContent (addr : Addr) (expected : Hash) : Exn (T Hash Account D) :=
  (addExn t.waitingContent addr expected).andThen fun waitingContent => .ok { t with waitingContent }

def write (query : Hash × Query) : T Hash Account D := { t with queries := t.queries ++ [query] }

inductive Result (Hash A : Type) where
  | good (a : A)
  | hashMismatch (expected actual : Hash)

/-- Fill in the tree with the accounts below an address. -/
def addContent (addr : Addr) (content : List Account) : Exn (T Hash Account D × Result Hash Unit) :=
  match t.waitingContent addr with
  | none => .error "Not_found"
  | some expected =>
    (t.tree.setAllAccountsRootedAtExn addr content).andThen fun tree =>
      let t := { t with tree, waitingContent := Function.update t.waitingContent addr none }
      (tree.getInnerHashAtAddrExn P addr).andThen fun actual =>
        .ok (t, if actual = expected then .good () else .hashMismatch expected actual)

/-- Whether the hash of an address in the tree is another one. -/
def shouldFetchChildren (p : Addr × Hash) : Exn Bool :=
  (t.tree.getInnerHashAtAddrExn P p.1).andThen fun h => .ok (h ≠ p.2)

def filterExn {A : Type} (f : A → Exn Bool) : List A → Exn (List A)
  | [] => .ok []
  | a :: l => (f a).andThen fun b => (filterExn f l).andThen fun l' => .ok (if b then a :: l' else l')

/-- The children that have to be fetched, if the hashes are the children's of
the node we are waiting for. -/
def addChildHashesTo (parentAddr : Addr) (lh rh : Hash) : Exn (T Hash Account D × Result Hash (List (Addr × Hash))) :=
  let ledgerDepth := t.tree.depth
  (Addr.child ledgerDepth parentAddr .left).andThen fun la =>
    (Addr.child ledgerDepth parentAddr .right).andThen fun ra =>
      match t.waitingParents parentAddr with
      | none => .error "Forgot to wait for a node"
      | some expected =>
        let mergedHash := P.merge (ledgerDepth - Addr.depth parentAddr - 1) lh rh
        if mergedHash = expected then
          (filterExn (shouldFetchChildren P t) [(la, lh), (ra, rh)]).andThen fun subtreesToFetch =>
            .ok ({ t with waitingParents := Function.update t.waitingParents parentAddr none }, .good subtreesToFetch)
        else .ok (t, .hashMismatch expected mergedHash)

def allDone : Exn (T Hash Account D) :=
  (desiredRootExn t).andThen fun desired =>
    if t.tree.merkleRoot P ≠ desired then .error "We finished syncing, but made a mistake somewhere :("
    else
      match t.validityListener with
      | some _ => .error "Ivar.fill called on full ivar"
      | none => .ok { t with validityListener := some .ok }

/-- The hash of an empty tree of a height. -/
def emptyHashAtHeight : Nat → Hash
  | 0 => P.emptyAccount
  | h + 1 => P.merge h (emptyHashAtHeight h) (emptyHashAtHeight h)

/-- `go` of `complete_with_empties`, with the number of levels left. -/
def completeGo (curEmpty prevHash : Hash) (height : Nat) : Nat → Hash
  | 0 => prevHash
  | k + 1 => completeGo (P.merge height curEmpty curEmpty) (P.merge height prevHash curEmpty) (height + 1) k

/-- The hash of the whole tree, given that of the smallest subtree with all
accounts; above the tree's height it goes on forever. -/
def completeWithEmpties (hash : Hash) (startHeight resultHeight : Nat) : Exn Hash :=
  if startHeight ≤ resultHeight then
    .ok (completeGo P (emptyHashAtHeight P startHeight) hash startHeight (resultHeight - startHeight))
  else .error "does not terminate"

/-- Start getting the children of an address. -/
def handleNode (addr : Addr) (expHash : Hash) : Exn (T Hash Account D) :=
  if Addr.depth addr ≥ t.tree.depth - accountSubtreeHeight then
    (expectContent t addr expHash).andThen fun t =>
      (desiredRootExn t).andThen fun h => .ok (write t (h, .whatContents addr))
  else
    (expectChildren t addr expHash).andThen fun t =>
      (desiredRootExn t).andThen fun h => .ok (write t (h, .whatChildHashes addr))

def handleNumAccounts (n : Nat) (contentHash : Hash) : Exn (T Hash Account D × Result Hash Unit) :=
  (desiredRootExn t).andThen fun rh =>
    (ceilLog2 n).andThen fun height =>
      (completeWithEmpties P contentHash height t.tree.depth).andThen fun actual =>
        if actual = rh then
          let t := { t with
            tree := t.tree.makeSpaceFor n
            waitingParents := fun _ => none
            waitingContent := fun _ => none }
          (handleNode accountSubtreeHeight t Addr.root rh).andThen fun t => .ok (t, .good ())
        else .ok (t, .hashMismatch rh actual)

/-- What becomes of an answer to a query of the current goal: the peer is
credited, or the query is queued again. -/
def handleResult (rootHash : Hash) (query : Query) (answer : Answer Hash Account) : Exn (T Hash Account D × Action) :=
  match query, answer with
  | .whatChildHashes addr, .childHashesAre lh rh =>
    (addChildHashesTo P t addr lh rh).andThen fun r =>
      match r.2 with
      | .hashMismatch _ _ => .ok (write r.1 (rootHash, query), .sentBadHash)
      | .good childrenToVerify =>
        (Exn.fold (fun t p => handleNode accountSubtreeHeight t p.1 p.2) r.1 childrenToVerify).andThen fun t =>
          .ok (t, .fulfilledRequest)
  | .whatContents addr, .contentsAre leaves =>
    (addContent P t addr leaves).andThen fun r =>
      match r.2 with
      | .good _ => .ok (r.1, .fulfilledRequest)
      | .hashMismatch _ _ => .ok (write r.1 (rootHash, query), .sentBadHash)
  | .numAccounts, .numAccounts count contentRoot =>
    (handleNumAccounts P accountSubtreeHeight t count contentRoot).andThen fun r =>
      match r.2 with
      | .good _ => .ok (r.1, .fulfilledRequest)
      | .hashMismatch _ _ => .ok (write r.1 (rootHash, query), .sentBadHash)
  | _, _ => .ok (write t (rootHash, query), .violatedProtocol)

def alreadyDone : Bool :=
  match t.validityListener with
  | some .ok => true
  | _ => false

/-- `handle_answer` of `main_loop`; no action if the answer is ignored. -/
def handleAnswer (rootHash : Hash) (query : Query) (answer : Answer Hash Account) :
    Exn (T Hash Account D × Option Action) :=
  (desiredRootExn t).andThen fun desired =>
    if rootHash ≠ desired then .ok (t, none)
    else if alreadyDone t then .ok (t, none)
    else
      (handleResult P accountSubtreeHeight t rootHash query answer).andThen fun r =>
        (desiredRootExn r.1).andThen fun desired =>
          if desired = r.1.tree.merkleRoot P then (allDone P r.1).andThen fun t => .ok (t, some r.2)
          else .ok (r.1, some r.2)

inductive Goal where
  | repeat
  | new
  | updateData

def newGoal (h : Hash) (data : D) (equal : D → D → Bool) : T Hash Account D × Goal :=
  if t.desiredRoot ≠ some h then
    (write { t with validityListener := none, desiredRoot := some h, auxiliaryData := some data } (h, .numAccounts), .new)
  else if (t.auxiliaryData.map fun savedData => equal data savedData).getD false then (t, .repeat)
  else ({ t with auxiliaryData := some data }, .updateData)

end Mina.SyncableLedger
