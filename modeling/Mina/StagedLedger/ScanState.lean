/-
The scan state of the staged ledger (`transaction_snark_scan_state.ml`): a
parallel scan of transactions with their statements, and of proofs that merge
the statements.

`LedgerModule` is what the staged ledger calls of `Ledger` and
`Sparse_ledger`: what applying a transaction does to a ledger is not looked
into here. Proofs and digests are numbers. Of an `Or_error` the text is kept,
of several errors that of the first.
-/
import Mina.ParallelScan.State
import Mina.PendingCoinbase.Stack
import Mina.Base.Transaction

namespace Mina.StagedLedger

open PendingCoinbase (Stack)
open ParallelScan (AvailableJob State)

structure LedgerModule (F : Type) where
  Ledger : Type
  SparseLedger : Type
  /-- `Transaction_applied.t`. -/
  Applied : Type
  /-- The view of the protocol state that a transaction is applied in. -/
  View : Type
  /-- `Transaction_status.t`. -/
  Status : Type
  statusDecEq : DecidableEq Status
  merkleRoot : Ledger → F
  nextAvailableToken : Ledger → TokenId
  applyTransaction : View → Ledger → Transaction → Exn (Applied × Ledger)
  userCommandStatus : Applied → Status
  transaction : Applied → WithStatus Status Transaction
  ofLedgerSubsetExn : Ledger → List AccountId → Exn SparseLedger
  /-- Is there a point with the compressed key? -/
  decompress : PublicKey → Bool

attribute [instance] LedgerModule.statusDecEq

/-! ## Statements and proofs -/

/-- `Pending_coinbase_stack_state.t`. -/
structure PendingCoinbaseStackState (F : Type) where
  source : Stack F
  target : Stack F
deriving DecidableEq

/-- `Transaction_snark.Statement.t`. -/
structure Statement (F : Type) where
  source : F
  target : F
  supplyIncrease : Amount
  pendingCoinbaseStackState : PendingCoinbaseStackState F
  feeExcess : FeeExcess
  nextAvailableTokenBefore : TokenId
  nextAvailableTokenAfter : TokenId
deriving DecidableEq

structure LedgerProof (F : Type) where
  statement : Statement F
  sokDigest : Nat
  underlyingProof : Nat
deriving DecidableEq

structure SokMessage where
  fee : Fee
  prover : PublicKey
deriving DecidableEq

structure TransactionSnarkWork (F : Type) where
  fee : Fee
  proofs : OneOrTwo (LedgerProof F)
  prover : PublicKey

inductive InitStack (F : Type) where
  | base (stack : Stack F)
  | merge

variable {F : Type}

structure TransactionWithWitness (I : LedgerModule F) where
  transactionWithInfo : I.Applied
  /-- The hash of the protocol state and that of its body. -/
  stateHash : F × F
  stateView : I.View
  statement : Statement F
  initStack : InitStack F
  ledgerWitness : I.SparseLedger

abbrev LedgerProofWithSokMessage (F : Type) := LedgerProof F × SokMessage

variable (I : LedgerModule F)

abbrev ScanState := State (LedgerProofWithSokMessage F) (TransactionWithWitness I)

namespace ScanState

/-! ## Jobs -/

abbrev Job := AvailableJob (LedgerProofWithSokMessage F) (TransactionWithWitness I)

variable {I} [DecidableEq F]

/-- `option lab`. -/
def option {α : Type} (lab : String) : Option α → Exn α
  | some x => .ok x
  | none => .error lab

/-- The work on a job: a proof of its statement. -/
def completedWorkToScanableWork (job : Job I) (work : Fee × LedgerProof F × PublicKey) :
    Exn (LedgerProofWithSokMessage F) :=
  let (fee, currentProof, prover) := work
  match job with
  | .base d => .ok ({ currentProof with statement := d.statement }, ⟨fee, prover⟩)
  | .merge p p' =>
    let s := p.1.statement
    let s' := p'.1.statement
    (FeeExcess.combine s.feeExcess s'.feeExcess).andThen fun feeExcess =>
      (option "Error adding supply_increases" (Currency.add s.supplyIncrease s'.supplyIncrease)).andThen
        fun supplyIncrease =>
          if s.pendingCoinbaseStackState.target ≠ s'.pendingCoinbaseStackState.source then
            .error "Invalid pending coinbase stack state"
          else if s.nextAvailableTokenAfter ≠ s'.nextAvailableTokenBefore then
            .error "Statements have incompatible next_available_token state"
          else
            .ok ({ currentProof with
              statement :=
                { source := s.source
                  target := s'.target
                  supplyIncrease
                  pendingCoinbaseStackState :=
                    ⟨s.pendingCoinbaseStackState.source, s'.pendingCoinbaseStackState.target⟩
                  feeExcess
                  nextAvailableTokenBefore := s.nextAvailableTokenBefore
                  nextAvailableTokenAfter := s'.nextAvailableTokenAfter } }, ⟨fee, prover⟩)

def statementOfJob : Job I → Option (Statement F)
  | .base d => some d.statement
  | .merge p1 p2 =>
    let stmt1 := p1.1.statement
    let stmt2 := p2.1.statement
    if stmt1.target ≠ stmt2.source then none
    else
      match FeeExcess.combine stmt1.feeExcess stmt2.feeExcess,
        Currency.add stmt1.supplyIncrease stmt2.supplyIncrease with
      | .ok feeExcess, some supplyIncrease =>
        if stmt1.nextAvailableTokenAfter ≠ stmt2.nextAvailableTokenBefore then none
        else
          some
            { source := stmt1.source
              target := stmt2.target
              supplyIncrease
              pendingCoinbaseStackState :=
                ⟨stmt1.pendingCoinbaseStackState.source, stmt2.pendingCoinbaseStackState.target⟩
              feeExcess
              nextAvailableTokenBefore := stmt1.nextAvailableTokenBefore
              nextAvailableTokenAfter := stmt2.nextAvailableTokenAfter }
      | _, _ => none

omit [DecidableEq F] in
def totalProofs (works : List (TransactionSnarkWork F)) : Nat := (works.map fun w => w.proofs.length).sum

/-! ## The scan state -/

def empty (transactionCapacityLog2 workDelay : Nat) : ScanState I := State.empty (2 ^ transactionCapacityLog2) workDelay

/-- The statements of a list of jobs, in pairs; `assert false` for a job
without one. -/
def statementsExn (workSeqs : List (List (Job I))) : Exn (List (OneOrTwo (Statement F))) :=
  (Exn.mapList (fun workSeq =>
    (Exn.mapList (fun job => option "Assert_failure" (statementOfJob job)) workSeq).andThen fun stmts =>
      .ok (OneOrTwo.groupList stmts)) workSeqs).andThen fun works => .ok works.flatten

def allWorkStatementsExn (t : ScanState I) : Exn (List (OneOrTwo (Statement F))) := statementsExn t.allWork

def workStatementsForNewDiff (t : ScanState I) : Exn (List (OneOrTwo (Statement F))) := statementsExn t.jobsForNextUpdate

omit [DecidableEq F] in
def partitionIfOverflowing (t : ScanState I) : State.SpacePartition :=
  let bundleCount (workCount : Nat) : Nat := (workCount + 1) / 2
  let p := State.partitionIfOverflowing t
  { first := (p.first.1, bundleCount p.first.2)
    second := p.second.map fun (slots, jobCount) => (slots, bundleCount jobCount) }

/-- `map2_or_error`. -/
def map2OrError {α β γ : Type} (f : α → β → Exn γ) : List α → List β → Exn (List γ)
  | [], [] => .ok []
  | x :: xs, y :: ys => (f x y).andThen fun z => (map2OrError f xs ys).andThen fun zs => .ok (z :: zs)
  | _, _ => .error "Length mismatch"

def fillInTransactionSnarkWork (t : ScanState I) (works : List (TransactionSnarkWork F)) :
    Exn (List (LedgerProofWithSokMessage F)) :=
  let nextJobs := t.jobsForNextUpdate.flatten.take (totalProofs works)
  map2OrError completedWorkToScanableWork nextJobs
    (works.flatMap fun w => (w.proofs.map fun proof => (w.fee, proof, w.prover)).toList)

/-- The transactions are added, and of the works the proofs of the next jobs;
a proof may come out, with its transactions and the hashes of their states. -/
def fillWorkAndEnqueueTransactions (t : ScanState I) (transactions : List (TransactionWithWitness I))
    (work : List (TransactionSnarkWork F)) :
    Exn (Option (LedgerProof F × List (WithStatus I.Status Transaction × F)) × ScanState I) :=
  let oldProof := t.acc
  (fillInTransactionSnarkWork t work).andThen fun workList =>
    (State.update transactions workList t).andThen fun r =>
      match r.1 with
      | none => .ok (none, r.2)
      | some (proof, txnsWithWitnesses) =>
        let currSource := proof.1.statement.source
        let prevTarget := (oldProof.map fun p => p.1.1.statement.target).getD currSource
        if currSource = prevTarget then
          .ok (some (proof.1, txnsWithWitnesses.map fun d => (I.transaction d.transactionWithInfo, d.stateHash.1)), r.2)
        else .error "Unexpected ledger proof emitted"

end ScanState

end Mina.StagedLedger
