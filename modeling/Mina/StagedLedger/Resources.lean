/-
The resources of a pre-diff under construction (`Resources` of
`staged_ledger.ml`), and the loop that discards commands and works until the
constraints on work, budget and space are met.

The fees of the works are in three places: with the works, in the coinbase
parts, and added up for each prover in a map. The budget is what the fees of
the commands leave after the fee transfers to provers other than the receiver;
most operations only adjust it. It is an `Or_error.t`, of which the text is
kept; what raises is an `Exn`. The log of the construction, which nothing
reads, is left out.
-/
import Mina.StagedLedger.CoinbaseWork

namespace Mina.StagedLedger.Resources

variable {F Status : Type}

/-- `User_command.Valid.t With_status.t`. -/
abbrev Command (Status : Type) := WithStatus Status UserCommand

def commandFee (uc : Command Status) : Exn Fee := uc.data.feeExn

structure Discarded (F Status : Type) where
  commandsRev : List (Command Status)
  completedWork : List (TransactionSnarkWork F)

namespace Discarded

def addUserCommand (t : Discarded F Status) (uc : Command Status) : Discarded F Status :=
  { t with commandsRev := t.commandsRev ++ [uc] }

def addCompletedWork (t : Discarded F Status) (cw : TransactionSnarkWork F) : Discarded F Status :=
  { t with completedWork := cw :: t.completedWork }

end Discarded

structure T (F Status : Type) where
  /-- The space available, in slots. -/
  maxSpace : Int
  /-- The amount of work that is required to fill it. -/
  maxJobs : Int
  commandsRev : List (Command Status)
  completedWorkRev : List (TransactionSnarkWork F)
  feeTransfers : FeeMap PublicKey
  addCoinbase : Bool
  coinbase : AtMostTwo CoinbaseFeeTransfer
  superchargeCoinbase : Bool
  receiverPk : PublicKey
  budget : Except String Fee
  discarded : Discarded F Status
  isCoinbaseReceiverNew : Bool

/-! ## The budget -/

/-- The fees that are owed for works, one entry a work. -/
def singles (remCw : List (TransactionSnarkWork F)) : List (PublicKey × Fee) :=
  (remCw.filterMap fun w => if w.fee = 0 then none else some (w.prover, w.fee)).reverse

/-- `option lab`. -/
def option {α : Type} (lab : String) : Option α → Except String α
  | some x => .ok x
  | none => .error lab

/-- `Or_error.map2` of the difference, and `Or_error.join`. -/
def feeDifference : Except String Fee → Except String Fee → Except String Fee
  | .ok r, .ok c => option "budget did not suffice" (Currency.sub r c)
  | .ok _, .error e => .error e
  | .error e, _ => .error e

def proverFeeOthers (t : T F Status) : Except String Fee :=
  t.feeTransfers.foldl
    (fun fees key data =>
      match fees with
      | .ok others => if t.receiverPk = key then .ok others else option "Fee overflow" (Currency.add others data)
      | .error e => .error e)
    (.ok 0)

/-- The budget computed from the commands and the fee transfers. -/
def rebudget (t : T F Status) : Exn (Except String Fee) :=
  (sumFees commandFee t.commandsRev).andThen fun paymentFees => .ok (feeDifference paymentFees (proverFeeOthers t))

def budgetSufficient (t : T F Status) : Bool := t.budget.isOk

/-! ## Slots -/

def coinbaseAdded (t : T F Status) : Nat :=
  match t.coinbase with
  | .zero => 0
  | .one _ => 1
  | .two _ => 2

/-- A command takes a slot, so does a coinbase, and so do two fee
transfers; what is left of the budget goes to the receiver. -/
def slotsOccupied (t : T F Status) : Nat :=
  let feeForSelf :=
    match t.budget with
    | .error _ => 0
    | .ok b => if b > 0 then 1 else 0
  let otherProvers := t.feeTransfers.filter fun key _ => t.receiverPk ≠ key
  let totalFeeTransferPks := otherProvers.size + feeForSelf
  t.commandsRev.length + (totalFeeTransferPks + 1) / 2 + coinbaseAdded t

/-- If more jobs were added in the previous diff then some slots can go for
free in this one. -/
def workDone (t : T F Status) : Bool :=
  (t.completedWorkRev.length : Int) = t.maxJobs || (slotsOccupied t : Int) ≤ t.maxSpace - t.maxJobs

def spaceConstraintSatisfied (t : T F Status) : Bool := (slotsOccupied t : Int) ≤ t.maxSpace

def workConstraintSatisfied (t : T F Status) : Bool :=
  workDone t || slotsOccupied t = 0 || slotsOccupied t ≤ t.completedWorkRev.length

/-! ## Operations -/

section Operations

variable [DecidableEq F] (c : ConstraintConstants)

def initCoinbaseAndFeeTransfers (cwSeq : List (TransactionSnarkWork F)) (addCoinbase : Bool) (jobCount slots : Int)
    (isCoinbaseReceiverNew superchargeCoinbase : Bool) :
    Exn (AtMostTwo CoinbaseFeeTransfer × List (PublicKey × Fee)) :=
  (coinbaseWork c false cwSeq isCoinbaseReceiverNew superchargeCoinbase).andThen fun choice =>
    .ok <|
      match addCoinbase, choice with
      | true, some r => (r.1, singles r.2)
      | true, none =>
        -- Either no jobs are required, or a slot can be filled without any work.
        if jobCount = 0 ∨ slots - jobCount ≥ 1 then (.one none, singles cwSeq) else (.zero, singles cwSeq)
      | false, _ => (.zero, singles cwSeq)

def init (ucSeq : List (Command Status)) (cwSeq : List (TransactionSnarkWork F)) (slots jobCount : Int)
    (receiverPk : PublicKey) (addCoinbase superchargeCoinbase isCoinbaseReceiverNew : Bool) :
    Exn (T F Status) :=
  (initCoinbaseAndFeeTransfers c cwSeq addCoinbase jobCount slots isCoinbaseReceiverNew
      superchargeCoinbase).andThen fun r =>
    (FeeMap.ofAlistReduce r.2).andThen fun feeTransfers =>
      (sumFees commandFee ucSeq).andThen fun revenue =>
        (sumFees (fun e => .ok e.2) (r.2.filter fun e => e.1 ≠ receiverPk)).andThen fun cost =>
          .ok
            { maxSpace := slots
              maxJobs := jobCount
              commandsRev := ucSeq
              completedWorkRev := cwSeq.reverse
              feeTransfers
              addCoinbase
              coinbase := r.1
              superchargeCoinbase
              receiverPk
              budget := feeDifference revenue cost
              discarded := ⟨[], []⟩
              isCoinbaseReceiverNew }

/-- The coinbase with as many parts as before, for the works that are left. -/
def reselectCoinbase (t : T F Status) : Exn (AtMostTwo CoinbaseFeeTransfer × List (TransactionSnarkWork F)) :=
  match t.coinbase with
  | .zero => .ok (t.coinbase, t.completedWorkRev)
  | .one _ =>
    (coinbaseWork c false t.completedWorkRev t.isCoinbaseReceiverNew t.superchargeCoinbase).andThen fun choice =>
      .ok (choice.getD (.one none, t.completedWorkRev))
  | .two _ =>
    (coinbaseWork c true t.completedWorkRev t.isCoinbaseReceiverNew t.superchargeCoinbase).andThen fun choice =>
      .ok (choice.getD (.two none, t.completedWorkRev))

def reselectCoinbaseWork (t : T F Status) : Exn (T F Status) :=
  (reselectCoinbase c t).andThen fun r =>
    (FeeMap.ofAlistReduce (singles r.2)).andThen fun feeTransfers =>
      .ok { t with coinbase := r.1, feeTransfers }

def discardLastWork (t : T F Status) : Exn (T F Status × Option (TransactionSnarkWork F)) :=
  match t.completedWorkRev with
  | [] => .ok (t, none)
  | w :: remSeq =>
    (reselectCoinbaseWork c { t with
        completedWorkRev := remSeq
        discarded := t.discarded.addCompletedWork w }).andThen fun newT =>
      let budget : Exn (Except String Fee) :=
        match t.budget with
        | .ok b => .ok (option "Currency overflow" (Currency.add b w.fee))
        | .error _ => rebudget newT
      budget.andThen fun budget => .ok ({ newT with budget }, some w)

/-- When the coinbase's fee transfer is discarded, it goes to the fee
transfers, so that the budget can be checked. -/
def updateFeeTransfers (t : T F Status) (ft : CoinbaseFeeTransfer) (coinbase : AtMostTwo CoinbaseFeeTransfer) :
    Exn (T F Status) :=
  let newT := { t with coinbase, feeTransfers := t.feeTransfers.insert ft.receiverPk ft.fee }
  (rebudget newT).andThen fun budget => .ok { newT with budget }

def decrCoinbase (t : T F Status) : Exn (T F Status) :=
  match t.coinbase with
  | .zero => .ok t
  | .one none => .ok { t with coinbase := .zero }
  | .two none => .ok { t with coinbase := .one none }
  | .two (some (ft, none)) => .ok { t with coinbase := .one (some ft) }
  | .one (some ft) => updateFeeTransfers t ft .zero
  | .two (some (ft1, some ft2)) => updateFeeTransfers t ft2 (.one (some ft1))

def discardUserCommand (t : T F Status) : Exn (T F Status × Option (Command Status)) :=
  match t.commandsRev with
  | [] => (decrCoinbase t).andThen fun t => .ok (t, none)
  | uc :: remSeq =>
    let newT := { t with commandsRev := remSeq, discarded := t.discarded.addUserCommand uc }
    let budget : Exn (Except String Fee) :=
      match t.budget with
      | .ok b => (commandFee uc).andThen fun fee => .ok (option "Fee insufficient" (Currency.sub b fee))
      | .error _ => rebudget newT
    budget.andThen fun budget => .ok ({ newT with budget }, some uc)

/-- Is there still enough work after discarding a work? -/
def workedMore (t : T F Status) : Exn Bool :=
  (discardLastWork c t).andThen fun r =>
    .ok (0 < r.1.completedWorkRev.length && slotsOccupied r.1 ≤ r.1.completedWorkRev.length)

/-- `incr`: one part more. -/
def incrCoinbase : AtMostTwo CoinbaseFeeTransfer → Except String (AtMostTwo CoinbaseFeeTransfer)
  | .zero => .ok (.one none)
  | .one none => .ok (.two none)
  | .one (some ft) => .ok (.two (some (ft, none)))
  | .two _ => .error "Coinbase count cannot be more than two"

/-- `by_one`: an error is logged, and leaves the resources as they are. -/
def incrCoinbaseByOne (res : T F Status) : Exn (T F Status) :=
  match res.discarded.completedWork, incrCoinbase res.coinbase with
  | _, .error _ => .ok res
  | w :: remWork, .ok coinbase =>
    reselectCoinbaseWork c { res with
      completedWorkRev := w :: res.completedWorkRev
      discarded := { res.discarded with completedWork := remWork }
      coinbase }
  | [], .ok coinbase => .ok (if workDone { res with coinbase } then { res with coinbase } else res)

inductive Count where
  | one
  | two

def incrCoinbasePartBy (t : T F Status) : Count → Exn (T F Status)
  | .one => incrCoinbaseByOne c t
  | .two => (incrCoinbaseByOne c t).andThen fun t => incrCoinbaseByOne c t

/-! ## The loop -/

/-- With the fuel for that many iterations; `none` when it runs out. -/
def checkConstraintsAndUpdate : Nat → T F Status → Exn (Option (T F Status))
  | 0, _ => .ok none
  | fuel + 1, resources =>
    if slotsOccupied resources = 0 then .ok (some resources)
    else if workConstraintSatisfied resources then
      if budgetSufficient resources then
        if spaceConstraintSatisfied resources then .ok (some resources)
        else
          (workedMore c resources).andThen fun more =>
            if more then
              -- Too many fee transfers occupy the slots.
              (discardLastWork c resources).andThen fun r => checkConstraintsAndUpdate fuel r.1
            else
              -- There is no space.
              (discardUserCommand resources).andThen fun r => checkConstraintsAndUpdate fuel r.1
      else
        -- The budget does not suffice: reduce the cost.
        (discardLastWork c resources).andThen fun r => checkConstraintsAndUpdate fuel r.1
    else
      -- There is not enough work for the transactions.
      (discardUserCommand resources).andThen fun r => checkConstraintsAndUpdate fuel r.1

end Operations

end Mina.StagedLedger.Resources
