/-
The stacks that a block leaves behind: the latest stack with the block's
state and its coinbases pushed on it, and, when the transactions go on to a
next tree of the scan state, a new stack with the state.

Only the coinbases of the transactions count (`coinbases`), in their order.
-/
import Mina.StagedLedger.StagedLedger

namespace Mina.StagedLedger

open PendingCoinbase (Stack RandomOracle)
open PendingCoinbase.Update (Action)

variable {F : Type} (O : RandomOracle F) {I : LedgerModule F} (b : BlockState I)

/-! ## Pushing coinbases -/

/-- The receivers and amounts of the coinbases. -/
def coinbases (txns : List (WithStatus I.Status Transaction)) : List (PublicKey × Amount) :=
  txns.filterMap fun t => match t.data with | .coinbase c => some (c.receiver, c.amount) | _ => none

def pushCoinbases (l : List (PublicKey × Amount)) (stack : Stack F) : Stack F :=
  l.foldl (fun stack c => Stack.pushCoinbase O c.1 c.2 stack) stack

theorem pushCoinbases_cons (t : WithStatus I.Status Transaction) (ts : List (WithStatus I.Status Transaction))
    (stack : Stack F) :
    pushCoinbases O (coinbases (t :: ts)) stack = pushCoinbases O (coinbases ts) (pushCoinbase O stack t.data) := by
  obtain ⟨data, status⟩ := t
  cases data <;> rfl

theorem coinbases_split (txns : List (WithStatus I.Status Transaction)) (n : Nat) :
    coinbases (txns.take n) ++ coinbases (txns.drop n) = coinbases txns := by
  rw [coinbases, coinbases, ← List.filterMap_append, List.take_append_drop, coinbases]

theorem coinbaseExists_eq (txns : List (WithStatus I.Status Transaction)) :
    coinbaseExists txns = !(coinbases txns).isEmpty := by
  induction txns with
  | nil => rfl
  | cons t ts ih =>
    obtain ⟨data, status⟩ := t
    cases data with
    | coinbase c => rfl
    | command c => exact ih
    | feeTransfer ft => exact ih

/-! ## Applying transactions -/

/-- The stack that a list of transactions leaves, from a working stack. -/
def targetStack (workingStack : Stack F) (txns : List (WithStatus I.Status Transaction)) : Stack F :=
  pushCoinbases O (coinbases txns) (pushState O workingStack b.stateAndBodyHash.2)

variable {O b}

theorem applyStep_target {acc acc' : List (TransactionWithWitness I) × StackStateWithInitStack F × I.Ledger}
    {t : WithStatus I.Status Transaction} (hok : applyStep O b acc t = .ok acc') :
    acc'.2.1.pc.target = pushCoinbase O acc.2.1.pc.target t.data := by
  rw [applyStep] at hok
  split at hok
  · cases hok
  · obtain ⟨r, hr, hok⟩ := Exn.andThen_eq_ok.1 hok
    obtain ⟨w, -, hr⟩ := Exn.andThen_eq_ok.1 hr
    obtain ⟨s, hs, hr⟩ := Exn.andThen_eq_ok.1 hr
    obtain ⟨fee, -, hs⟩ := Exn.andThen_eq_ok.1 hs
    obtain ⟨supply, -, hs⟩ := Exn.andThen_eq_ok.1 hs
    obtain ⟨applied, -, hs⟩ := Exn.andThen_eq_ok.1 hs
    split at hr
    · cases hs
      cases hr
      cases hok
      rfl
    · cases hr

theorem fold_target : ∀ {ts : List (WithStatus I.Status Transaction)}
    {acc r : List (TransactionWithWitness I) × StackStateWithInitStack F × I.Ledger},
    Exn.fold (applyStep O b) acc ts = .ok r → r.2.1.pc.target = pushCoinbases O (coinbases ts) acc.2.1.pc.target
  | [], _, _, hok => by
    cases hok
    rfl
  | t :: ts, acc, r, hok => by
    obtain ⟨acc', hstep, hfold⟩ := Exn.fold_cons_eq_ok.1 hok
    rw [fold_target hfold, applyStep_target hstep, pushCoinbases_cons]

theorem updateLedgerAndGetStatements_stack {ledger : I.Ledger} {currentStack : Stack F}
    {ts : List (WithStatus I.Status Transaction)} {r : (List (TransactionWithWitness I) × Stack F) × I.Ledger}
    (hok : updateLedgerAndGetStatements O b ledger currentStack ts = .ok r) :
    r.1.2 = targetStack O b currentStack ts := by
  obtain ⟨s, hfold, hok⟩ := Exn.andThen_eq_ok.1 hok
  cases hok
  exact fold_target hfold

/-! ## What a block does to the stacks -/

/-- The cases of `update_coinbase_stack_and_get_data`: no transactions, a
single partition, or two. -/
theorem updateCoinbaseStackAndGetData_cases {scanState : ScanState I} {ledger : I.Ledger}
    {collection : PendingCoinbase.T F} {txns : List (WithStatus I.Status Transaction)}
    {r : CoinbaseStackData I × I.Ledger}
    (hok : updateCoinbaseStackAndGetData O b scanState ledger collection txns = .ok r) :
    (txns = [] ∧ r.1 = ⟨false, [], .updateNone, .updateNone⟩) ∨
    (txns ≠ [] ∧ (ScanState.partitionIfOverflowing scanState).second = none ∧ ∃ working,
      workingStack collection scanState.nextOnNewTree = .ok working ∧ r.1.isNewStack = scanState.nextOnNewTree ∧
        r.1.action = .updateOne ∧ r.1.stackUpdate = .updateOne (targetStack O b working txns)) ∨
    (txns ≠ [] ∧ (ScanState.partitionIfOverflowing scanState).second.isSome ∧ ∃ working slots,
      slots = (ScanState.partitionIfOverflowing scanState).first.1.toNat ∧
        workingStack collection false = .ok working ∧ r.1.isNewStack = false ∧
          (r.1.action, r.1.stackUpdate) =
            match coinbaseExists (txns.take slots), decide ((txns.drop slots).length > 0) with
            | true, true => (.updateTwoCoinbaseInFirst, .updateTwo (targetStack O b working (txns.take slots))
                (targetStack O b (Stack.createWith O working) (txns.drop slots)))
            | true, false => (.updateOne, .updateOne (targetStack O b working (txns.take slots)))
            | false, true => (.updateTwoCoinbaseInSecond, .updateTwo (targetStack O b working (txns.take slots))
                (targetStack O b (Stack.createWith O working) (txns.drop slots)))
            | false, false => (.updateNone, .updateNone)) := by
  rw [updateCoinbaseStackAndGetData] at hok
  split at hok
  next hlen =>
    have hne : txns ≠ [] := List.ne_nil_of_length_pos hlen
    split at hok
    next hsecond =>
      obtain ⟨working, hworking, hok⟩ := Exn.andThen_eq_ok.1 hok
      obtain ⟨s, hs, hok⟩ := Exn.andThen_eq_ok.1 hok
      cases hok
      refine .inr (.inl ⟨hne, hsecond, working, hworking, rfl, rfl, ?_⟩)
      rw [updateLedgerAndGetStatements_stack hs]
    next second hsecond =>
      obtain ⟨working, hworking, hok⟩ := Exn.andThen_eq_ok.1 hok
      obtain ⟨s₁, hs₁, hok⟩ := Exn.andThen_eq_ok.1 hok
      obtain ⟨s₂, hs₂, hok⟩ := Exn.andThen_eq_ok.1 hok
      cases hok
      refine .inr (.inr ⟨hne, by rw [hsecond]; rfl, working, _, rfl, hworking, rfl, ?_⟩)
      rewrite [updateLedgerAndGetStatements_stack hs₁, updateLedgerAndGetStatements_stack hs₂]
      split <;> rename_i h₁ h₂ <;> simp only [h₁, h₂]
  next hlen =>
    cases hok
    exact .inl ⟨List.length_eq_zero_iff.1 (by omega), rfl⟩

end Mina.StagedLedger
