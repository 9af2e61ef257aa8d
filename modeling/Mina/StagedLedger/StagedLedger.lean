/-
The staged ledger (`staged_ledger.ml`): `apply_diff`, which applies the
transactions of a block to the ledger, adds them with their statements to the
scan state and updates the pending coinbases.

The scan state is not verified again after the diff
(`~skip_verification:true`). A result says nothing of logs and times, nor of
the hash of the new staged ledger.
-/
import Mina.StagedLedger.ScanState
import Mina.PendingCoinbase.Checked

namespace Mina.StagedLedger

open PendingCoinbase (Stack ConstraintConstants)
open PendingCoinbase.Update (Action)

/-- The stacks that a block leaves behind. -/
inductive StackUpdate (F : Type) where
  | updateNone
  | updateOne (stack1 : Stack F)
  | updateTwo (stack1 stack2 : Stack F)

structure StackStateWithInitStack (F : Type) where
  pc : PendingCoinbaseStackState F
  initStack : Stack F

variable {F : Type} (O : PendingCoinbase.RandomOracle F) {I : LedgerModule F}

def workingStack (pendingCoinbaseCollection : PendingCoinbase.T F) (isNewStack : Bool) : Exn (Stack F) :=
  PendingCoinbase.latestStack pendingCoinbaseCollection isNewStack

def pushCoinbase (currentStack : Stack F) : Transaction → Stack F
  | .coinbase c => Stack.pushCoinbase O c.receiver c.amount currentStack
  | _ => currentStack

def pushState (currentStack : Stack F) (stateBodyHash : F) : Stack F := Stack.pushState O stateBodyHash currentStack

/-- What a block is applied with: its protocol state view, state hash and
state body hash. -/
structure BlockState (I : LedgerModule F) where
  currentStateView : I.View
  stateAndBodyHash : F × F

/-! ## Applying transactions -/

section Apply

variable (b : BlockState I) (ledger : I.Ledger) (pendingCoinbaseStackState : StackStateWithInitStack F)

def applyTransactionAndGetStatement (s : Transaction) :
    Exn ((I.Applied × Statement F × StackStateWithInitStack F) × I.Ledger) :=
  s.feeExcess.andThen fun feeExcess =>
    s.supplyIncrease.andThen fun supplyIncrease =>
      let pendingCoinbaseTarget := pushCoinbase O pendingCoinbaseStackState.pc.target s
      let newInitStack := pushCoinbase O pendingCoinbaseStackState.initStack s
      (I.applyTransaction b.currentStateView ledger s).andThen fun r =>
        .ok ((r.1,
          { source := I.merkleRoot ledger
            target := I.merkleRoot r.2
            feeExcess
            nextAvailableTokenBefore := I.nextAvailableToken ledger
            nextAvailableTokenAfter := I.nextAvailableToken r.2
            supplyIncrease
            pendingCoinbaseStackState := { pendingCoinbaseStackState.pc with target := pendingCoinbaseTarget } },
          { pc := ⟨pendingCoinbaseTarget, pendingCoinbaseTarget⟩, initStack := newInitStack }), r.2)

/-- The accounts that go into the witness. -/
def accountIds : Transaction → List AccountId
  | .feeTransfer t => FeeTransfer.receivers t
  | .command t => t.accountsAccessed (I.nextAvailableToken ledger)
  | .coinbase c =>
    ⟨c.receiver, TokenId.default⟩ :: c.feeTransfer.toList.map fun ft => ⟨ft.receiverPk, TokenId.default⟩

def applyTransactionAndGetWitness (t : WithStatus I.Status Transaction) :
    Exn ((TransactionWithWitness I × StackStateWithInitStack F) × I.Ledger) :=
  (I.ofLedgerSubsetExn ledger (accountIds ledger t.data)).andThen fun ledgerWitness =>
    (applyTransactionAndGetStatement O b ledger pendingCoinbaseStackState t.data).andThen fun r =>
      if t.status = I.userCommandStatus r.1.1 then
        .ok (({ transactionWithInfo := r.1.1
                stateHash := b.stateAndBodyHash
                stateView := b.currentStateView
                ledgerWitness
                initStack := .base pendingCoinbaseStackState.initStack
                statement := r.1.2.1 }, r.1.2.2), r.2)
      else .error "Mismatched_statuses"

end Apply

variable (b : BlockState I)

/-- One step of the fold over the transactions. -/
def applyStep (acc : List (TransactionWithWitness I) × StackStateWithInitStack F × I.Ledger)
    (t : WithStatus I.Status Transaction) :
    Exn (List (TransactionWithWitness I) × StackStateWithInitStack F × I.Ledger) :=
  match t.data.publicKeys.find? fun pk => !I.decompress pk with
  | some _ => .error "Invalid_public_key"
  | none =>
    (applyTransactionAndGetWitness O b acc.2.2 acc.2.1 t).andThen fun r => .ok (r.1.1 :: acc.1, r.1.2, r.2)

def updateLedgerAndGetStatements (ledger : I.Ledger) (currentStack : Stack F)
    (ts : List (WithStatus I.Status Transaction)) :
    Exn ((List (TransactionWithWitness I) × Stack F) × I.Ledger) :=
  let currentStackWithState := pushState O currentStack b.stateAndBodyHash.2
  (Exn.fold (applyStep O b) ([], ⟨⟨currentStack, currentStackWithState⟩, currentStack⟩, ledger) ts).andThen fun r =>
    .ok ((r.1.reverse, r.2.1.pc.target), r.2.2)

/-! ## The fee excess -/

def totalFeeExcess (txns : List Transaction) : Exn FeeExcess :=
  Exn.fold (fun acc txn => txn.feeExcess.andThen fun feeExcess => FeeExcess.combine acc feeExcess) FeeExcess.empty txns

/-- The fee excess of the transactions on each partition is zero. -/
def checkZeroFeeExcess (scanState : ScanState I) (data : List (TransactionWithWitness I)) : Exn Unit :=
  let partitions := ScanState.partitionIfOverflowing scanState
  let slots := partitions.first.1.toNat
  let check (data : List (TransactionWithWitness I)) : Exn Unit :=
    (totalFeeExcess (data.map fun d => (I.transaction d.transactionWithInfo).data)).andThen fun feeExcess =>
      if feeExcess.isZero then .ok () else .error "Non_zero_fee_excess"
  (check (data.take slots)).andThen fun _ =>
    match partitions.second with
    | none => .ok ()
    | some _ => check (data.drop slots)

/-! ## The pending coinbases -/

def coinbaseExists (txns : List (WithStatus I.Status Transaction)) : Bool :=
  txns.any fun t => match t.data with | .coinbase _ => true | _ => false

/-- What becomes of the stacks, and the data for the scan state. -/
structure CoinbaseStackData (I : LedgerModule F) where
  isNewStack : Bool
  data : List (TransactionWithWitness I)
  action : Action
  stackUpdate : StackUpdate F

def updateCoinbaseStackAndGetData (scanState : ScanState I) (ledger : I.Ledger)
    (pendingCoinbaseCollection : PendingCoinbase.T F) (transactions : List (WithStatus I.Status Transaction)) :
    Exn (CoinbaseStackData I × I.Ledger) :=
  let partition := ScanState.partitionIfOverflowing scanState
  let slots := partition.first.1.toNat
  if transactions.length > 0 then
    match partition.second with
    | none =>
      -- a single partition
      let isNewStack := scanState.nextOnNewTree
      (workingStack pendingCoinbaseCollection isNewStack).andThen fun workingStack =>
        (updateLedgerAndGetStatements O b ledger workingStack transactions).andThen fun r =>
          .ok (⟨isNewStack, r.1.1, .updateOne, .updateOne r.1.2⟩, r.2)
    | some _ =>
      -- two partitions, one of which has the coinbases
      let txnsForPartition1 := transactions.take slots
      let coinbaseInFirstPartition := coinbaseExists txnsForPartition1
      (workingStack pendingCoinbaseCollection false).andThen fun workingStack1 =>
        (updateLedgerAndGetStatements O b ledger workingStack1 txnsForPartition1).andThen fun r1 =>
          let txnsForPartition2 := transactions.drop slots
          -- the second stack starts with the state of the first one
          let workingStack2 := Stack.createWith O workingStack1
          (updateLedgerAndGetStatements O b r1.2 workingStack2 txnsForPartition2).andThen fun r2 =>
            let secondHasData : Bool := txnsForPartition2.length > 0
            let (action, stackUpdate) : Action × StackUpdate F :=
              match coinbaseInFirstPartition, secondHasData with
              | true, true => (.updateTwoCoinbaseInFirst, .updateTwo r1.1.2 r2.1.2)
              | true, false => (.updateOne, .updateOne r1.1.2)
              | false, true => (.updateTwoCoinbaseInSecond, .updateTwo r1.1.2 r2.1.2)
              | false, false => (.updateNone, .updateNone)
            .ok (⟨false, r1.1.1 ++ r2.1.1, action, stackUpdate⟩, r2.2)
  else .ok (⟨false, [], .updateNone, .updateNone⟩, ledger)

/-- Delete the oldest stack if a proof was emitted, and update or add the
latest. -/
def updatePendingCoinbaseCollection [DecidableEq F] (depth : Nat) (pendingCoinbaseCollection : PendingCoinbase.T F)
    (stackUpdate : StackUpdate F) (isNewStack : Bool) (ledgerProof : Option (LedgerProof F)) :
    Exn (PendingCoinbase.T F) :=
  let updated1 : Exn (PendingCoinbase.T F) :=
    match ledgerProof with
    | some proof =>
      (PendingCoinbase.removeCoinbaseStack O depth pendingCoinbaseCollection).andThen fun r =>
        if r.1 = proof.statement.pendingCoinbaseStackState.target then .ok r.2
        else
          .error ("Pending coinbase stack of the ledger proof did not match the oldest stack in the pending " ++
            "coinbase tree.")
    | none => .ok pendingCoinbaseCollection
  updated1.andThen fun updated1 =>
    match stackUpdate with
    | .updateNone => .ok updated1
    | .updateOne stack1 => PendingCoinbase.updateCoinbaseStack O depth updated1 stack1 isNewStack
    | .updateTwo stack1 stack2 =>
      (PendingCoinbase.updateCoinbaseStack O depth updated1 stack1 false).andThen fun update1 =>
        PendingCoinbase.updateCoinbaseStack O depth update1 stack2 true

def coinbaseForBlockchainSnark : List Amount → Exn Amount
  | [] => .ok 0
  | [amount] => .ok amount
  | [amount1, _] => .ok amount1
  | _ => .error "More than two coinbase parts"

/-! ## Diffs -/

structure T (I : LedgerModule F) where
  scanState : ScanState I
  ledger : I.Ledger
  pendingCoinbaseCollection : PendingCoinbase.T F

variable [DecidableEq F] (c : ConstraintConstants)

def createExn (ledger : I.Ledger) : Exn (T I) :=
  (PendingCoinbase.create O c.pendingCoinbaseDepth).andThen fun pendingCoinbaseCollection =>
    .ok { scanState := ScanState.empty c.transactionCapacityLog2 c.workDelay, ledger, pendingCoinbaseCollection }

/-- What `Pre_diff_info.get'` returns, without the number of commands. -/
structure PreDiffInfo (I : LedgerModule F) where
  transactions : List (WithStatus I.Status Transaction)
  works : List (TransactionSnarkWork F)
  coinbases : List Amount

structure Applied (I : LedgerModule F) where
  ledgerProof : Option (LedgerProof F × List (WithStatus I.Status Transaction × F))
  stagedLedger : T I
  isNewStack : Bool
  action : Action
  coinbaseAmount : Amount

def applyDiff (t : T I) (preDiffInfo : PreDiffInfo I) : Exn (Applied I) :=
  (ScanState.allWorkStatementsExn t.scanState).andThen fun _ =>
    (updateCoinbaseStackAndGetData O b t.scanState t.ledger t.pendingCoinbaseCollection
        preDiffInfo.transactions).andThen fun (r, newLedger) =>
      (ScanState.workStatementsForNewDiff t.scanState).andThen fun requiredPairs =>
        let workCount := preDiffInfo.works.length
        let required := requiredPairs.length
        if workCount < required ∧ (r.data.length : Int) > (t.scanState.freeSpace : Int) - required + workCount then
          .error "Insufficient_work"
        else
          (checkZeroFeeExcess t.scanState r.data).andThen fun _ =>
            (ScanState.fillWorkAndEnqueueTransactions t.scanState r.data preDiffInfo.works).andThen
              fun (resOpt, scanState) =>
                (updatePendingCoinbaseCollection O c.pendingCoinbaseDepth t.pendingCoinbaseCollection r.stackUpdate
                    r.isNewStack (resOpt.map (·.1))).andThen fun pendingCoinbaseCollection =>
                  (coinbaseForBlockchainSnark preDiffInfo.coinbases).andThen fun coinbaseAmount =>
                    .ok { ledgerProof := resOpt
                          stagedLedger := { scanState, ledger := newLedger, pendingCoinbaseCollection }
                          isNewStack := r.isNewStack
                          action := r.action
                          coinbaseAmount }

end Mina.StagedLedger
