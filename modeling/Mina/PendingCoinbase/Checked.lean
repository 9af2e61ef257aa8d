/-
The circuit over the pending coinbases (`Checked` of
`mina_base/pending_coinbase.ml`), as plain functions: `add_coinbase`,
`pop_coinbases`, the requests they make and the `handler` that answers them.

A computation runs over the collection that the handler holds (`Prover`); a
constraint that does not hold and an exception are both an error. A variable
is its value, and an address its index.

The Merkle trees of circuits (`Snarky_backendless.Merkle_tree.Checked`) are
not in the repository, so they are a parameter (`MerkleTreeChecked`). What is
relied on (`Documented`): `implied_root` goes up from a leaf, the lowest bit of
its address first, and `fetch_and_update_req` does for one address what
`pop_coinbases` spells out, with a function for the new element.
-/
import Mina.PendingCoinbase.PendingCoinbase
import Mina.Base.Transaction

namespace Mina.PendingCoinbase

/-- The constants of `Genesis_constants.Constraint_constants`. -/
structure ConstraintConstants where
  workDelay : Nat
  transactionCapacityLog2 : Nat
  pendingCoinbaseDepth : Nat
  coinbaseAmount : Amount
  superchargedCoinbaseFactor : Nat

/-! ## Updates -/

namespace Update

/-- `Update.Action.t`. -/
inductive Action where
  | updateNone
  | updateOne
  | updateTwoCoinbaseInFirst
  | updateTwoCoinbaseInSecond
deriving DecidableEq

namespace Action

def toBits : Action → Bool × Bool
  | .updateNone => (false, false)
  | .updateOne => (true, false)
  | .updateTwoCoinbaseInFirst => (false, true)
  | .updateTwoCoinbaseInSecond => (true, true)

def noUpdate (t : Action) : Bool := !t.toBits.1 && !t.toBits.2

def updateTwoStacksCoinbaseInFirst (t : Action) : Bool := !t.toBits.1 && t.toBits.2

def updateTwoStacksCoinbaseInSecond (t : Action) : Bool := t.toBits.1 && t.toBits.2

end Action

end Update

open Update (Action)

/-- `Update.t`. -/
structure Update where
  action : Action
  coinbaseAmount : Amount

/-! ## Computations and requests -/

/-- A computation over the collection of the handler. -/
abbrev Prover (F α : Type) := T F → Exn (α × T F)

namespace Prover

variable {F α β : Type}

def pure (a : α) : Prover F α := fun t => .ok (a, t)

def andThen (x : Prover F α) (f : α → Prover F β) : Prover F β := fun t => (x t).andThen fun r => f r.1 r.2

def ofExn (x : Exn α) : Prover F α := fun t => x.andThen fun a => .ok (a, t)

/-- A constraint. -/
def assert (b : Bool) : Prover F Unit := ofExn (if b then .ok () else .error "Constraint unsatisfied")

theorem andThen_of_ok {x : Prover F α} {t t' : T F} {a : α} (h : x t = .ok (a, t')) (f : α → Prover F β) :
    x.andThen f t = f a t' := by
  rw [andThen, h, Exn.andThen_ok]

theorem assert_of_true {b : Bool} (hb : b = true) (t : T F) : assert b t = .ok ((), t) := by
  rw [assert, ofExn, if_pos hb, Exn.andThen_ok]

end Prover

/-- What a request makes of the handler's collection, by the type of the
answer. -/
abbrev Handler (F : Type) (Request : Type → Type) := ∀ α : Type, Request α → Prover F α

inductive Request (F : Type) : Type → Type
  | coinbaseStackPath (addr : Nat) : Request F (List F)
  | getCoinbaseStack (addr : Nat) : Request F (Stack F × List F)
  | setCoinbaseStack (addr : Nat) (stack : Stack F) : Request F Unit
  | setOldestCoinbaseStack (addr : Nat) (stack : Stack F) : Request F Unit
  | findIndexOfNewestStacks (action : Action) : Request F (Nat × Nat)
  | findIndexOfOldestStack : Request F Nat
  | getPreviousStack : Request F (StateStack F)

/-- The requests of `Merkle_tree.Checked`. -/
inductive MerkleRequest (F : Type) : Type → Type
  | getPath (addr : Nat) : MerkleRequest F (List F)
  | set (addr : Nat) (stack : Stack F) : MerkleRequest F Unit
  | getElement (addr : Nat) : MerkleRequest F (Stack F × List F)

variable {F : Type}

def reraiseMerkleRequests (h : Handler F (Request F)) : Handler F (MerkleRequest F)
  | _, .getPath addr => h _ (.coinbaseStackPath addr)
  | _, .set addr stack => h _ (.setCoinbaseStack addr stack)
  | _, .getElement addr => h _ (.getCoinbaseStack addr)

/-! ## The handler -/

section Handler

variable (O : RandomOracle F)

def stepHash : SparseLedger.Step F → F
  | .left h => h
  | .right h => h

def coinbaseStackPathExn (t : T F) (idx : Nat) : Exn (List F) :=
  (path O t idx).andThen fun path => .ok (path.map stepHash)

/-- `next_stack_id`, or zero when there is none. -/
def nextStackIdOrZero (depth : Nat) (t : T F) (isNewStack : Bool) : Nat :=
  match nextStackId depth t isNewStack with
  | .ok id => id
  | .error _ => 0

def handler (depth : Nat) (isNewStack : Bool) : Handler F (Request F)
  | _, .coinbaseStackPath idx => fun t => (coinbaseStackPathExn O t idx).andThen fun path => .ok (path, t)
  | _, .findIndexOfOldestStack => fun t =>
    (findIndex t ((oldestStackId t).getD 0)).andThen fun index => .ok (index, t)
  | _, .findIndexOfNewestStacks _ => fun t =>
    (findIndex t (latestStackId t isNewStack)).andThen fun index1 =>
      (findIndex t (nextStackIdOrZero depth t isNewStack)).andThen fun index2 => .ok ((index1, index2), t)
  | _, .getCoinbaseStack idx => fun t =>
    (getStack t idx).andThen fun elt =>
      (coinbaseStackPathExn O t idx).andThen fun path => .ok ((elt, path), t)
  | _, .setCoinbaseStack idx stack => fun t =>
    (setStack O depth t idx stack isNewStack).andThen fun t' => .ok ((), t')
  | _, .setOldestCoinbaseStack idx stack => fun t =>
    (setStack O depth t idx stack false).andThen fun t' => .ok ((), t')
  | _, .getPreviousStack => fun t =>
    if isNewStack then
      (currentStack t).andThen fun stack => .ok ({ init := stack.state.curr, curr := stack.state.curr }, t)
    else (latestStack t isNewStack).andThen fun stack => .ok (stack.state, t)

end Handler

/-! ## Merkle trees of circuits -/

/-- What the circuit uses of `Merkle_tree.Checked`. -/
structure MerkleTreeChecked (F : Type) where
  impliedRoot : F → Nat → List F → F
  /-- The new root, the old element and the new one. -/
  fetchAndUpdateReq : Handler F (MerkleRequest F) → F → Nat → (Stack F → Prover F (Stack F)) →
    Prover F (F × Stack F × Stack F)

variable (O : RandomOracle F)

/-- From height `height` on: the address gives the side of the node that the
path has come from. -/
def impliedRoot : (height : Nat) → F → Nat → List F → F
  | _, acc, _, [] => acc
  | height, acc, addr, h :: path =>
    let parent := if addr % 2 = 1 then O.coinbaseMerkleTree height h acc else O.coinbaseMerkleTree height acc h
    impliedRoot (height + 1) parent (addr / 2) path

variable [DecidableEq F]

def fetchAndUpdateReq (h : Handler F (MerkleRequest F)) (root : F) (addr : Nat)
    (f : Stack F → Prover F (Stack F)) : Prover F (F × Stack F × Stack F) :=
  Prover.andThen (h _ (.getElement addr)) fun prev =>
    Prover.andThen (Prover.assert (impliedRoot O 0 (Stack.dataHash O prev.1) addr prev.2 = root)) fun _ =>
      Prover.andThen (f prev.1) fun next =>
        Prover.andThen (h _ (.set addr next)) fun _ =>
          Prover.pure (impliedRoot O 0 (Stack.dataHash O next) addr prev.2, prev.1, next)

/-- What is relied on: a path is as long as its address. -/
structure Documented (M : MerkleTreeChecked F) : Prop where
  impliedRoot_eq : M.impliedRoot = impliedRoot O 0
  fetchAndUpdateReq_eq : M.fetchAndUpdateReq = fetchAndUpdateReq O

/-! ## The circuit -/

section Circuit

variable (M : MerkleTreeChecked F) (c : ConstraintConstants) (h : Handler F (Request F))

/-- The state body hash is pushed unless there are no transactions in the
block, onto the stack of state body hashes that is carried forward. -/
def updateStateStack (action : Action) (stateBodyHash : F) (stack : Stack F) : Prover F (Stack F) :=
  Prover.andThen (h _ .getPreviousStack) fun previousStateStack =>
    let stackInitialized := { stack with state := previousStateStack }
    let stackWithStateHash := Stack.pushState O stateBodyHash stackInitialized
    Prover.pure (if action.noUpdate then stack else stackWithStateHash)

def totalCoinbaseAmount (superchargeCoinbase : Bool) : Exn Amount :=
  (Currency.scale c.coinbaseAmount c.superchargedCoinbaseFactor).andThen fun amt =>
    (Exn.valueExn amt).andThen fun superchargedCoinbase =>
      .ok (if superchargeCoinbase then superchargedCoinbase else c.coinbaseAmount)

/-- `Amount.Checked.sub`: unpacking the difference protects against
underflow. -/
def checkedSub (x y : Amount) : Exn Amount :=
  match Currency.sub x y with
  | some z => .ok z
  | none => .error "Constraint unsatisfied"

/-- The new first stack. -/
def updateStack1 (update : Update) (coinbaseReceiver : PublicKey) (superchargeCoinbase : Bool) (stateBodyHash : F)
    (stack : Stack F) : Prover F (Stack F) :=
  let amount := update.coinbaseAmount
  let noUpdate := update.action.noUpdate
  Prover.andThen (updateStateStack O h update.action stateBodyHash stack) fun stack =>
    Prover.andThen (Prover.ofExn (totalCoinbaseAmount c superchargeCoinbase)) fun totalCoinbaseAmount =>
      Prover.andThen (Prover.ofExn (checkedSub totalCoinbaseAmount amount)) fun remAmount =>
        let noCoinbaseInThisStack := update.action.updateTwoStacksCoinbaseInSecond
        let amount1EqualToZero : Bool := amount = 0
        let amount2EqualToZero : Bool := remAmount = 0
        -- if no update then coinbase amount has to be zero
        Prover.andThen (Prover.assert (noUpdate == amount1EqualToZero)) fun _ =>
          let noCoinbase := noUpdate || noCoinbaseInThisStack
          let stackWithAmount1 := Stack.pushCoinbase O coinbaseReceiver amount stack
          let stackWithAmount2 := Stack.pushCoinbase O coinbaseReceiver remAmount stackWithAmount1
          Prover.pure
            (if noCoinbase then stack else if amount2EqualToZero then stackWithAmount1 else stackWithAmount2)

/-- The second stack, when the transactions of a block occupy two trees of
the scan state: it carries forward the state stack from the previous block
and may have a coinbase. -/
def updateStack2 (update : Update) (coinbaseReceiver : PublicKey) (stateBodyHash : F) (initStack stack0 : Stack F) :
    Stack F :=
  let addCoinbase := update.action.updateTwoStacksCoinbaseInSecond
  let updateState := update.action.updateTwoStacksCoinbaseInFirst || addCoinbase
  let stackWithState := Stack.pushState O stateBodyHash { stack0 with state := StateStack.create initStack.state.curr }
  let stack := if updateState then stackWithState else stack0
  let stackWithCoinbase := Stack.pushCoinbase O coinbaseReceiver update.coinbaseAmount stack
  if addCoinbase then stackWithCoinbase else stack

def addCoinbase (t : F) (update : Update) (coinbaseReceiver : PublicKey) (superchargeCoinbase : Bool)
    (stateBodyHash : F) : Prover F F :=
  Prover.andThen (h _ (.findIndexOfNewestStacks update.action)) fun addr =>
    Prover.andThen
        (M.fetchAndUpdateReq (reraiseMerkleRequests h) t addr.1
          (updateStack1 O c h update coinbaseReceiver superchargeCoinbase stateBodyHash)) fun r =>
      Prover.andThen
          (M.fetchAndUpdateReq (reraiseMerkleRequests h) r.1 addr.2 fun stack0 =>
            Prover.pure (updateStack2 O update coinbaseReceiver stateBodyHash r.2.1 stack0)) fun r' =>
        Prover.pure r'.1

/-- The new root, and the stack that was the oldest. -/
def popCoinbases (t : F) (proofEmitted : Bool) : Prover F (F × Stack F) :=
  Prover.andThen (h _ .findIndexOfOldestStack) fun addr =>
    Prover.andThen (h _ (.getCoinbaseStack addr)) fun prev =>
      Prover.andThen (Prover.assert (M.impliedRoot (Stack.dataHash O prev.1) addr prev.2 = t)) fun _ =>
        let next := if proofEmitted then Stack.empty O else prev.1
        Prover.andThen (h _ (.setOldestCoinbaseStack addr next)) fun _ =>
          Prover.pure (M.impliedRoot (Stack.dataHash O next) addr prev.2, prev.1)

/-- The two one after the other, as in the blockchain snark: from the root of
the collection `t`, which the handler holds. -/
def popThenAdd (t : T F) (isNewStack proofEmitted : Bool) (update : Update) (coinbaseReceiver : PublicKey)
    (superchargeCoinbase : Bool) (stateBodyHash : F) : Exn F :=
  let h := handler O c.pendingCoinbaseDepth isNewStack
  (Prover.andThen (popCoinbases O M h (merkleRoot O t) proofEmitted) (fun r =>
      addCoinbase O M c h r.1 update coinbaseReceiver superchargeCoinbase stateBodyHash) t).andThen fun r => .ok r.1

end Circuit

end Mina.PendingCoinbase
