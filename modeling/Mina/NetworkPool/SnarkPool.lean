/-
The pool of completed snark work (`network_pool/snark_pool.ml`,
`network_pool/snark_pool_diff.ml`) and the diffs that the network pool
verifies and applies (`network_pool/network_pool_base.ml`).

A call of `Diff.verify` waits after the check of the statements (a sender may
be punished there) and for the batcher, and what comes after is computed on
the pool as it then is; the calls are kept with where they stand. Which diffs
are verified and applied, and in which order, is up to the run: the rate
limit, the expired callbacks and the overflow of the pipe only leave some out.

Of a sender whether it is local is read, of a ledger whether it is detached
and which provers have an account in it. A filter by a best tip ledger that is
interrupted while it runs goes on entry by entry after its step, each as a
`removeSolvedWork`. Trust, logs and metrics are left out.
-/
import Mina.Base.Transaction
import Mina.Frontier.SnarkPoolRefcount

namespace Mina

/-- `One_or_two.zip` -/
def OneOrTwo.zip {α β : Type} : OneOrTwo α → OneOrTwo β → Except String (OneOrTwo (α × β))
  | .one a, .one b => .ok (.one (a, b))
  | .two a a', .two b b' => .ok (.two (a, b) (a', b'))
  | _, _ => .error "One_or_two.zip mismatched"

namespace SnarkPool

open Frontier.SnarkPoolRefcount (View)

structure FeeWithProver (K : Type) where
  fee : Fee
  prover : K

structure PricedProof (K P : Type) where
  proof : OneOrTwo P
  fee : FeeWithProver K

structure SnarkTables (K P S : Type) where
  all : OneOrTwo S → Option (PricedProof K P)
  rebroadcastable : OneOrTwo S → Option (PricedProof K P × Nat)

structure T (K P S : Type) where
  snarkTables : SnarkTables K P S
  refTable : Option (OneOrTwo S → Option Int)
  bestTipTable : Option (Finset (OneOrTwo S))
  accountCreationFee : Fee
  removedCounter : Nat

inductive Diff (K P S : Type) where
  | addSolvedWork (work : OneOrTwo S) (p : PricedProof K P)
  | empty

/-- `Envelope.Incoming.t` -/
structure Envelope (K P S : Type) where
  data : Diff K P S
  isLocal : Bool

structure BaseLedger (K : Type) where
  detached : Bool
  hasAccount : K → Bool

/-- What is called: `Ledger_proof.statement`, and whether `decompress` gives a
key. -/
structure Setting (K P S : Type) where
  statement : P → S
  decompress : K → Bool

variable {K P S : Type} [DecidableEq S]

/-! ## The tables -/

namespace SnarkTables

def create : SnarkTables K P S where
  all _ := none
  rebroadcastable _ := none

def remove (t : SnarkTables K P S) (work : OneOrTwo S) : SnarkTables K P S where
  all := Function.update t.all work none
  rebroadcastable := Function.update t.rebroadcastable work none

/-- The entries of `all` that are not kept go out of both tables. -/
def filter (t : SnarkTables K P S) (keep : OneOrTwo S → PricedProof K P → Bool) : SnarkTables K P S where
  all work := (t.all work).filter (keep work)
  rebroadcastable work := if (t.all work).any (fun p => !keep work p) then none else t.rebroadcastable work

end SnarkTables

def removedBreadcrumbWait : Nat := 10

def create (accountCreationFee : Fee) : T K P S where
  snarkTables := .create
  refTable := none
  bestTipTable := none
  accountCreationFee
  removedCounter := removedBreadcrumbWait

def workIsReferenced (t : T K P S) (work : OneOrTwo S) : Bool :=
  match t.refTable with
  | none => false
  | some refTable => (refTable work).isSome

def feeIsSufficient (t : T K P S) (fee : Fee) (accountExists : Bool) : Bool :=
  decide (t.accountCreationFee ≤ fee) || accountExists

def requestProof (t : T K P S) (work : OneOrTwo S) : Option (PricedProof K P) := t.snarkTables.all work

def removeSolvedWork (t : T K P S) (work : OneOrTwo S) : T K P S :=
  { t with snarkTables := t.snarkTables.remove work }

inductive AddResult where
  | added
  | statementNotReferenced

def addSnark (isLocal : Bool) (t : T K P S) (work : OneOrTwo S) (p : PricedProof K P) (now : Nat) :
    T K P S × AddResult :=
  if workIsReferenced t work then
    ({ t with snarkTables := {
        all := Function.update t.snarkTables.all work (some p)
        rebroadcastable :=
          if isLocal then Function.update t.snarkTables.rebroadcastable work (some (p, now))
          else Function.update t.snarkTables.rebroadcastable work none } }, .added)
  else (t, .statementNotReferenced)

/-! ## The frontier -/

/-- An interruption comes before the filter. -/
def handleNewBestTipLedger (t : T K P S) (ledger : BaseLedger K) : T K P S :=
  if ledger.detached then t
  else { t with snarkTables := t.snarkTables.filter fun _ p =>
    feeIsSufficient t p.fee.fee (ledger.hasAccount p.fee.prover) }

def handleNewRefcountTable (t : T K P S) (view : View (OneOrTwo S)) : T K P S :=
  let t := { t with
    refTable := some view.refcountTable
    bestTipTable := some view.bestTipTable
    removedCounter := t.removedCounter + view.removed }
  if t.removedCounter ≥ removedBreadcrumbWait then
    { t with
      removedCounter := 0
      snarkTables := t.snarkTables.filter fun work _ => workIsReferenced t work }
  else t

/-- `listen_to_frontier_broadcast_pipe`, when there is a frontier and when
there is none. -/
def listenToFrontier (t : T K P S) : Bool → T K P S
  | true => { t with removedCounter := removedBreadcrumbWait }
  | false => { t with refTable := none, bestTipTable := none }

/-! ## Diffs -/

def hasLowerFee (pool : T K P S) (work : OneOrTwo S) (fee : Fee) : Except String Unit :=
  match requestProof pool work with
  | none => .ok ()
  | some prev =>
    if fee < prev.fee.fee then .ok ()
    else if fee = prev.fee.fee then .error "fee equal to cheapest work we have"
    else .error "fee higher than cheapest work we have"

/-- Where a call of `Diff.verify` stands, and its diff after that. -/
inductive Phase where
  | statementCheck (ok : Bool)
  | inBatcher
  | verified (res : Except String Unit)
  | applied

variable (setting : Setting K P S)

def failed : Phase := .verified (.error "failed to verify snark pool diff")

/-- `verify_and_act` up to the check of the statements. -/
def verifyAndAct (work : OneOrTwo S) (p : PricedProof K P) : Phase :=
  match p.proof.zip work with
  | .ok pairs => .statementCheck (pairs.toList.all fun pair => setting.statement pair.1 = pair.2)
  | .error _ => failed

def verify (pool : T K P S) (env : Envelope K P S) : Phase :=
  match env.data with
  | .empty => .verified (.error "cannot verify empty snark pool diff")
  | .addSolvedWork work p =>
    if env.isLocal then verifyAndAct setting work p
    else
      match hasLowerFee pool work p.fee.fee with
      | .ok () => verifyAndAct setting work p
      | .error e => .verified (.error e)

/-- `verify_and_act` from the check of the statements up to the batcher. -/
def afterStatementCheck (pool : T K P S) (bestTipLedger : Option (BaseLedger K)) (env : Envelope K P S) (ok : Bool) :
    Phase :=
  match env.data with
  | .empty => failed
  | .addSolvedWork work p =>
    let proverAccountExists := bestTipLedger.any fun ledger => !ledger.detached && ledger.hasAccount p.fee.prover
    if !feeIsSufficient pool p.fee.fee proverAccountExists then failed
    else if !workIsReferenced pool work then failed
    else if !ok then failed
    else if !setting.decompress p.fee.prover then failed
    else .inBatcher

/-- The rest of `verify_and_act`. -/
def afterBatcher : Except String Bool → Phase
  | .ok true => .verified (.ok ())
  | .ok false => failed
  | .error _ => failed

inductive ApplyError (K P S : Type) where
  | other (error : String)
  | locallyGenerated (diff : Diff K P S)

def unsafeApply (pool : T K P S) (env : Envelope K P S) (now : Nat) :
    T K P S × Except (ApplyError K P S) (Diff K P S) :=
  match env.data with
  | .empty => (pool, .error (.other "cannot apply empty snark pool diff"))
  | .addSolvedWork work p =>
    match hasLowerFee pool work p.fee.fee with
    | .ok () =>
      match addSnark env.isLocal pool work p now with
      | (pool, .statementNotReferenced) => (pool, .error (.other "statement not referenced"))
      | (pool, .added) => (pool, .ok env.data)
    | .error e => (pool, .error (if env.isLocal then .locallyGenerated env.data else .other e))

/-! ## Steps -/

structure Call (K P S : Type) where
  env : Envelope K P S
  phase : Phase

structure State (K P S : Type) where
  pool : T K P S
  calls : List (Call K P S)

inductive Event (K P S : Type) where
  | verify (env : Envelope K P S)
  /-- The statements of a call have been checked; with the best tip ledger. -/
  | statementsChecked (i : Nat) (bestTipLedger : Option (BaseLedger K))
  | batcherAnswered (i : Nat) (answer : Except String Bool)
  | unsafeApply (i : Nat) (now : Nat)
  | newRefcountTable (view : View (OneOrTwo S))
  | newBestTip (ledger : BaseLedger K)
  | removeSolvedWork (work : OneOrTwo S)
  | frontier (opened : Bool)

/-- A call goes on, if it stands where the event is for. -/
def advance (t : State K P S) (i : Nat) (next : Call K P S → Option Phase) : Option (State K P S) :=
  t.calls[i]?.bind fun c => (next c).map fun phase => { t with calls := t.calls.set i { c with phase } }

def step (t : State K P S) : Event K P S → Option (State K P S)
  | .verify env => some { t with calls := t.calls ++ [⟨env, verify setting t.pool env⟩] }
  | .statementsChecked i bestTipLedger => advance t i fun c =>
    match c.phase with
    | .statementCheck ok => some (afterStatementCheck setting t.pool bestTipLedger c.env ok)
    | _ => none
  | .batcherAnswered i answer => advance t i fun c =>
    match c.phase with
    | .inBatcher => some (afterBatcher answer)
    | _ => none
  | .unsafeApply i now =>
    t.calls[i]?.bind fun c =>
      match c.phase with
      | .verified (.ok ()) => some {
          pool := (SnarkPool.unsafeApply t.pool c.env now).1
          calls := t.calls.set i { c with phase := .applied } }
      | _ => none
  | .newRefcountTable view => some { t with pool := handleNewRefcountTable t.pool view }
  | .newBestTip ledger => some { t with pool := handleNewBestTipLedger t.pool ledger }
  | .removeSolvedWork work => some { t with pool := SnarkPool.removeSolvedWork t.pool work }
  | .frontier opened => some { t with pool := listenToFrontier t.pool opened }

/-! ## Runs -/

variable (valid : P → S → FeeWithProver K → Prop)

/-- The batcher answers true only for proofs that are valid for their
statements and the message of the fee and the prover. -/
def Condition (t : State K P S) : Event K P S → Prop
  | .batcherAnswered i answer => answer = .ok true → ∀ c, t.calls[i]? = some c → ∀ work p,
    c.env.data = .addSolvedWork work p → ∀ q ∈ p.proof.toList, valid q (setting.statement q) p.fee
  | _ => True

def Step (t t' : State K P S) : Prop := ∃ event, Condition setting valid t event ∧ step setting t event = some t'

def init (accountCreationFee : Fee) : State K P S where
  pool := create accountCreationFee
  calls := []

/-- The proofs are for the statements of the work, in their order, and valid
for the fee and the prover. -/
def Proves (work : OneOrTwo S) (p : PricedProof K P) : Prop :=
  List.Forall₂ (fun q s => setting.statement q = s ∧ valid q s p.fee) p.proof.toList work.toList

structure Sound (t : SnarkTables K P S) : Prop where
  proves : ∀ work p, t.all work = some p → Proves setting valid work p
  rebroadcastable : ∀ work p time, t.rebroadcastable work = some (p, time) → t.all work = some p

/-- An entry stays, goes out or is replaced by a cheaper one. -/
def Improves (t t' : SnarkTables K P S) : Prop :=
  ∀ work p p', t.all work = some p → t'.all work = some p' → p' = p ∨ p'.fee.fee < p.fee.fee

/-- The table is pruned by the new counts. -/
def Prunes (t : T K P S) : Event K P S → Prop
  | .newRefcountTable view => t.removedCounter + view.removed ≥ removedBreadcrumbWait
  | _ => False

end SnarkPool

end Mina
