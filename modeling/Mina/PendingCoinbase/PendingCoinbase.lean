/-
The pending coinbases of `mina_base/pending_coinbase.ml`: a Merkle tree of
`2 ^ depth` stacks, the ids of the pending ones (the newest first) and the id
the next one gets.

The ids (`Stack_id.t`) are the numbers below `2 ^ depth`; the tree's `indexes` give the leaf
of an id. An error of `Or_error` and an exception are both an error here, so
`try_with` is not seen.
-/
import Mina.PendingCoinbase.Stack
import Mina.SparseLedger.SparseLedger

namespace Mina.PendingCoinbase

namespace StackId

def incrByOne (t1 : Nat) : Exn Nat :=
  let t2 := t1 + 1
  if t2 < t1 then .error "Stack_id overflow" else .ok t2

end StackId

/-- Total number of stacks. -/
def maxCoinbaseStackCount (depth : Nat) : Nat := 2 ^ depth

structure T (F : Type) where
  tree : SparseLedger.T F Nat (Stack F) Unit
  posList : List Nat
  newPos : Nat

variable {F : Type} (O : RandomOracle F)

/-- The arguments of `Sparse_ledger.Make`. -/
def merkleTree : SparseLedger.Params F (Stack F) Unit where
  merge := O.coinbaseMerkleTree
  dataHash := Stack.dataHash O
  token := fun _ => ()
  next := fun _ => ()
  max := fun _ _ => ()

/-! ## Creation -/

def initHash : F := Stack.dataHash O (Stack.empty O)

/-- The cache of the levels that have been computed is left out. -/
def hashAtLevel : Nat → F
  | 0 => initHash O
  | i + 1 => O.coinbaseMerkleTree i (hashAtLevel i) (hashAtLevel i)

/-- `height` is one less in the source, and ends at `-1`. -/
def createPath : Nat → List (SparseLedger.Step F) → Nat → List (SparseLedger.Step F)
  | 0, path, _ => path
  | height + 1, path, key =>
    let hash := hashAtLevel O height
    createPath height ((if key % 2 = 0 then .left hash else .right hash) :: path) (key / 2)

section Create

variable [DecidableEq F]

def makeTree (depth : Nat) (t : SparseLedger.T F Nat (Stack F) Unit) (key : Nat) :
    Exn (SparseLedger.T F Nat (Stack F) Unit) :=
  if key > 2 ^ depth - 1 then .ok t
  else
    (SparseLedger.addPath (merkleTree O) t (createPath O depth [] key) key (Stack.empty O)).andThen fun t =>
      makeTree depth t (key + 1)
termination_by 2 ^ depth - key
decreasing_by
  have := Nat.two_pow_pos depth
  omega

def create (depth : Nat) : Exn (T F) :=
  (makeTree O depth (SparseLedger.ofHash depth () (hashAtLevel O depth)) 0).andThen fun tree =>
    .ok { tree, posList := [], newPos := 0 }

end Create

/-! ## Reading -/

def merkleRoot (t : T F) : F := SparseLedger.merkleRoot (merkleTree O) t.tree

def getStack (t : T F) (index : Nat) : Exn (Stack F) := SparseLedger.getExn t.tree index

def path (t : T F) (index : Nat) : Exn (List (SparseLedger.Step F)) :=
  SparseLedger.pathExn (merkleTree O) t.tree index

def findIndex (t : T F) (key : Nat) : Exn Nat := SparseLedger.findIndexExn t.tree key

def nextIndex (depth : Nat) (t : T F) : Exn Nat :=
  if t.newPos = maxCoinbaseStackCount depth - 1 then .ok 0 else StackId.incrByOne t.newPos

def nextStackId (depth : Nat) (t : T F) (isNewStack : Bool) : Exn Nat :=
  if isNewStack then nextIndex depth t else .ok t.newPos

def latestStackId (t : T F) (isNewStack : Bool) : Nat :=
  if isNewStack then t.newPos else t.posList.head?.getD 0

def currStackId (t : T F) : Option Nat := t.posList.head?

def currentStack (t : T F) : Exn (Stack F) :=
  (findIndex t ((currStackId t).getD 0)).andThen fun index => getStack t index

def latestStack (t : T F) (isNewStack : Bool) : Exn (Stack F) :=
  (findIndex t (latestStackId t isNewStack)).andThen fun index =>
    (getStack t index).andThen fun res =>
      if isNewStack then
        (currentStack t).andThen fun prevStack =>
          .ok { res with state := StateStack.create prevStack.state.curr }
      else .ok res

def oldestStackId (t : T F) : Option Nat := t.posList.getLast?

def oldestStack (t : T F) : Exn (Stack F) :=
  (findIndex t ((oldestStackId t).getD 0)).andThen fun index => getStack t index

/-! ## Updating -/

def incrIndex (depth : Nat) (t : T F) (isNewStack : Bool) : Exn (T F) :=
  if isNewStack then
    (nextIndex depth t).andThen fun newPos => .ok { t with posList := t.newPos :: t.posList, newPos }
  else .ok t

def setStack (depth : Nat) (t : T F) (index : Nat) (stack : Stack F) (isNewStack : Bool) : Exn (T F) :=
  (SparseLedger.setExn (merkleTree O) t.tree index stack).andThen fun tree =>
    incrIndex depth { t with tree } isNewStack

/-- `update_stack'`. -/
def updateStack (depth : Nat) (t : T F) (f : Stack F → Stack F) (isNewStack : Bool) : Exn (T F) :=
  (findIndex t (latestStackId t isNewStack)).andThen fun stackIndex =>
    (getStack t stackIndex).andThen fun stackBefore =>
      setStack O depth t stackIndex (f stackBefore) isNewStack

def updateCoinbaseStack (depth : Nat) (t : T F) (stack : Stack F) (isNewStack : Bool) : Exn (T F) :=
  updateStack O depth t (fun _ => stack) isNewStack

def removeOldestStackId (t : List Nat) : Exn (Nat × List Nat) :=
  match t.reverse with
  | [] => .error "No coinbase stack-with-state-hash to pop"
  | x :: xs => .ok (x, xs.reverse)

def removeCoinbaseStack (depth : Nat) (t : T F) : Exn (Stack F × T F) :=
  (removeOldestStackId t.posList).andThen fun r =>
    (findIndex t r.1).andThen fun stackIndex =>
      (getStack t stackIndex).andThen fun stack =>
        (setStack O depth t stackIndex (Stack.empty O) false).andThen fun t' =>
          .ok (stack, { t' with posList := r.2 })

end Mina.PendingCoinbase
