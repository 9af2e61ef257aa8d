/-
The sparse ledger of `sparse_ledger_lib/sparse_ledger.ml`: a Merkle tree of
which only some leaves are known, the rest of it given by hashes.

The hash, the account, their ids and the token ids are parameters, as they
are of the functor `Make`. Heights count down to `-1` at the leaves, so they
are integers.
-/
import Mina.Base.Exn

namespace Mina.SparseLedger

inductive Tree (Hash Account : Type) where
  | account (a : Account)
  | hash (h : Hash)
  | node (h : Hash) (l r : Tree Hash Account)
deriving DecidableEq

structure T (Hash Key Account TokenId : Type) where
  indexes : List (Key × Nat)
  depth : Nat
  tree : Tree Hash Account
  nextAvailableToken : TokenId

/-- A step of a path: which side it goes to, and the hash of the other side. -/
inductive Step (Hash : Type) where
  | left (h : Hash)
  | right (h : Hash)
deriving DecidableEq

/-- What the functor `Make` takes. -/
structure Params (Hash Account TokenId : Type) where
  merge : Int → Hash → Hash → Hash
  dataHash : Account → Hash
  token : Account → TokenId
  next : TokenId → TokenId
  max : TokenId → TokenId → TokenId

variable {Hash Key Account TokenId : Type}

def ofHash (depth : Nat) (nextAvailableToken : TokenId) (h : Hash) : T Hash Key Account TokenId :=
  { indexes := [], depth, tree := .hash h, nextAvailableToken }

variable (P : Params Hash Account TokenId)

def hash : Tree Hash Account → Hash
  | .account a => P.dataHash a
  | .hash h => h
  | .node h _ _ => h

def merkleRoot (t : T Hash Key Account TokenId) : Hash := hash P t.tree

/-! ## Adding a path -/

def buildTree (account : Account) : Int → List (Step Hash) → Exn (Tree Hash Account)
  | height, .left hR :: path =>
    (buildTree account (height - 1) path).andThen fun l =>
      .ok (.node (P.merge height (hash P l) hR) l (.hash hR))
  | height, .right hL :: path =>
    (buildTree account (height - 1) path).andThen fun r =>
      .ok (.node (P.merge height hL (hash P r)) (.hash hL) r)
  | height, [] => Exn.assert (height = -1) (.ok (.account account))

section Union

variable [DecidableEq Hash] [DecidableEq Account]

def union (account : Account) : Int → Tree Hash Account → List (Step Hash) → Exn (Tree Hash Account)
  | height, .hash h, path =>
    (buildTree P account height path).andThen fun t =>
      if h = hash P t then .ok t
      else .error "Hashes in union are not equal, something is wrong with your ledger"
  | height, .node h l r, .left hR :: path =>
    Exn.assert (hR = hash P r) ((union account (height - 1) l path).andThen fun l => .ok (.node h l r))
  | height, .node h l r, .right hL :: path =>
    Exn.assert (hL = hash P l) ((union account (height - 1) r path).andThen fun r => .ok (.node h l r))
  | _, .node _ _ _, [] => .error "Path too short"
  | _, .account _, _ :: _ => .error "Path too long"
  | _, .account a, [] => Exn.assert (a = account) (.ok (.account a))

/-- `List.foldi path ~init:0` with the bit of each step, from step `i` on. -/
def pathIndex (i acc : Nat) : List (Step Hash) → Nat
  | [] => acc
  | .right _ :: path => pathIndex (i + 1) (acc + 1 <<< i) path
  | .left _ :: path => pathIndex (i + 1) acc path

/-- The path goes from the leaf to the root. -/
def addPath (t : T Hash Key Account TokenId) (path : List (Step Hash)) (accountId : Key) (account : Account) :
    Exn (T Hash Key Account TokenId) :=
  (union P account ((t.depth : Int) - 1) t.tree path.reverse).andThen fun tree =>
    .ok { t with tree, indexes := (accountId, pathIndex 0 0 path) :: t.indexes }

end Union

/-! ## Reading and writing a leaf -/

def ithBit (idx : Nat) (i : Int) : Bool := (idx >>> i.toNat) &&& 1 = 1

def findIndexExn [DecidableEq Key] (t : T Hash Key Account TokenId) (aid : Key) : Exn Nat :=
  match t.indexes.lookup aid with
  | some index => .ok index
  | none => .error "Not_found"

def kind : Tree Hash Account → String
  | .account _ => "n account"
  | .hash _ => " hash"
  | .node _ _ _ => " node"

/-- The error of `get_exn` and `set_exn`. The one of `get_exn` ends with a
print of the whole ledger, which is left out. -/
def badIndex (name : String) (depth idx : Nat) (i : Int) (tree : Tree Hash Account) : String :=
  let expected := if i < 0 then "n account" else " node"
  s!"Sparse_ledger.{name}: Bad index {idx}. Expected a{expected}, but got a{kind tree} at depth {(depth : Int) - i}."

def getGo (depth idx : Nat) : Int → Tree Hash Account → Exn Account
  | i, .account acct => if i < 0 then .ok acct else .error (badIndex "get" depth idx i (.account acct : Tree Hash Account))
  | i, .node h l r =>
    if i < 0 then .error (badIndex "get" depth idx i (.node h l r))
    else if ithBit idx i then getGo depth idx (i - 1) r
    else getGo depth idx (i - 1) l
  | i, .hash h => .error (badIndex "get" depth idx i (.hash h : Tree Hash Account))

def getExn (t : T Hash Key Account TokenId) (idx : Nat) : Exn Account :=
  getGo t.depth idx ((t.depth : Int) - 1) t.tree

def setGo (depth idx : Nat) (acct : Account) : Int → Tree Hash Account → Exn (Tree Hash Account)
  | i, .account a => if i < 0 then .ok (.account acct) else .error (badIndex "set" depth idx i (.account a : Tree Hash Account))
  | i, .node h l r =>
    if i < 0 then .error (badIndex "set" depth idx i (.node h l r))
    else if ithBit idx i then
      (setGo depth idx acct (i - 1) r).andThen fun r => .ok (.node (P.merge i (hash P l) (hash P r)) l r)
    else
      (setGo depth idx acct (i - 1) l).andThen fun l => .ok (.node (P.merge i (hash P l) (hash P r)) l r)
  | i, .hash h => .error (badIndex "set" depth idx i (.hash h : Tree Hash Account))

def setExn (t : T Hash Key Account TokenId) (idx : Nat) (acct : Account) : Exn (T Hash Key Account TokenId) :=
  (setGo P t.depth idx acct ((t.depth : Int) - 1) t.tree).andThen fun tree =>
    .ok { t with tree, nextAvailableToken := P.max t.nextAvailableToken (P.next (P.token acct)) }

def pathGo (idx : Nat) : List (Step Hash) → Int → Tree Hash Account → Exn (List (Step Hash))
  | acc, i, .account _ => if i < 0 then .ok acc else .error s!"Sparse_ledger.path: Bad depth at index {idx}."
  | acc, i, .hash _ => if i < 0 then .ok acc else .error s!"Sparse_ledger.path: Dead end at index {idx}."
  | acc, i, .node _ l r =>
    if i < 0 then .ok acc
    else if ithBit idx i then pathGo idx (.right (hash P l) :: acc) (i - 1) r
    else pathGo idx (.left (hash P r) :: acc) (i - 1) l

def pathExn (t : T Hash Key Account TokenId) (idx : Nat) : Exn (List (Step Hash)) :=
  pathGo P idx [] ((t.depth : Int) - 1) t.tree

end Mina.SparseLedger
