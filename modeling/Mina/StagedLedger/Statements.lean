/-
The statements of a block's transactions make a chain: each starts from the
ledger, the next available token and the coinbase stack that the one before
it has left (`fold_statements`). So the statement of a proof of a block's
transactions does not depend on how the scan state has bracketed them
(`updateLedgerAndGetStatements_proved`).

`completed_work_to_scanable_work` does not compare the ledgers of two proofs
that it merges and `statement_of_job` does not compare their stacks. Of two
neighbours in a block they accept the same
(`updateLedgerAndGetStatements_merge`).
-/
import Mina.StagedLedger.CheckedCoinbase
import Mina.Base.FeeExcessFacts

namespace Mina

/-! ## Fee excesses -/

namespace SignedAmount

theorem ofUnsigned_canonical {x : Amount} : (ofUnsigned x).Canonical := fun _ => rfl

theorem negate_canonical {x : SignedAmount} : x.negate.Canonical := by
  rw [negate]
  split
  · exact zero_canonical
  next h => exact fun hzero => absurd hzero h

end SignedAmount

/-- The fee excess of a transaction is rebalanced. -/
theorem Transaction.feeExcess_canonical {t : Transaction} {fe : FeeExcess} (h : t.feeExcess = .ok fe) :
    fe.Canonical := by
  cases t with
  | command c =>
    cases c with
    | signedCommand c =>
      exact FeeExcess.rebalance_canonical h SignedAmount.ofUnsigned_canonical SignedAmount.zero_canonical
    | snappCommand c =>
      obtain ⟨f, -, h⟩ := Exn.andThen_eq_ok.1 h
      exact FeeExcess.rebalance_canonical h SignedAmount.ofUnsigned_canonical SignedAmount.zero_canonical
  | feeTransfer ft =>
    cases ft with
    | one s => exact FeeExcess.rebalance_canonical h SignedAmount.negate_canonical SignedAmount.zero_canonical
    | two s s' => exact FeeExcess.rebalance_canonical h SignedAmount.negate_canonical SignedAmount.negate_canonical
  | coinbase c =>
    obtain ⟨x, -, h⟩ := Exn.andThen_eq_ok.1 h
    cases h
    exact FeeExcess.empty_canonical

theorem FeeExcess.run_empty : run empty = 1 := by rw [run, entry_zero rfl, entry_zero rfl, one_mul]

namespace StagedLedger

open PendingCoinbase (Stack RandomOracle numberOracle)
open ScanState (completedWorkToScanableWork statementOfJob)

variable {F : Type}

/-- The excesses of a list of transactions, added up from `acc`. -/
theorem totalFeeExcess_run {ts : List Transaction} {fes : List FeeExcess} {acc fe : FeeExcess}
    (hts : List.Forall₂ (fun t fe => Transaction.feeExcess t = .ok fe) ts fes) (hacc : acc.Canonical)
    (h : Exn.fold (fun acc txn => txn.feeExcess.andThen fun feeExcess => FeeExcess.combine acc feeExcess) acc ts =
      .ok fe) : fe.run = acc.run * (fes.map FeeExcess.run).prod ∧ fe.Canonical := by
  induction hts generalizing acc with
  | nil =>
    cases h
    exact ⟨(mul_one _).symm, hacc⟩
  | cons ht _ ih =>
    obtain ⟨acc', hstep, hfold⟩ := Exn.fold_cons_eq_ok.1 h
    rw [ht, Exn.andThen_ok] at hstep
    have hcanonical := FeeExcess.combine_canonical hacc (Transaction.feeExcess_canonical ht) hstep
    obtain ⟨hrun, hfe⟩ := ih hcanonical hfold
    exact ⟨by rw [hrun, FeeExcess.combine_run hstep, mul_assoc, List.map_cons, List.prod_cons], hfe⟩

/-! ## Chains -/

/-- Where a statement starts, or ends. -/
structure Point (F : Type) where
  ledger : F
  nextAvailableToken : TokenId
  stack : Stack F

namespace Statement

def before (s : Statement F) : Point F := ⟨s.source, s.nextAvailableTokenBefore, s.pendingCoinbaseStackState.source⟩

def after (s : Statement F) : Point F := ⟨s.target, s.nextAvailableTokenAfter, s.pendingCoinbaseStackState.target⟩

end Statement

/-- Each statement starts where the one before it ends. -/
def Chained : Point F → List (Statement F) → Point F → Prop
  | p, [], q => p = q
  | p, s :: ss, q => s.before = p ∧ Chained s.after ss q

theorem chained_append {p q : Point F} {ss ss' : List (Statement F)} :
    Chained p (ss ++ ss') q ↔ ∃ m, Chained p ss m ∧ Chained m ss' q := by
  induction ss generalizing p with
  | nil =>
    constructor
    · intro h
      exact ⟨p, rfl, h⟩
    · rintro ⟨m, rfl, h⟩
      exact h
  | cons s ss ih =>
    rw [List.cons_append, Chained, ih]
    constructor
    · rintro ⟨hs, m, hm, h⟩
      exact ⟨m, ⟨hs, hm⟩, h⟩
    · rintro ⟨m, ⟨hs, hm⟩, h⟩
      exact ⟨hs, m, hm, h⟩

/-! ## The statements of a block -/

section Blocks

variable {O : RandomOracle F} {I : LedgerModule F} {b : BlockState I}

/-- Where the ledger and the stack are. -/
def pointOf (ledger : I.Ledger) (stack : Stack F) : Point F := ⟨I.merkleRoot ledger, I.nextAvailableToken ledger, stack⟩

/-- The statement of a transaction has its excess and its increase. -/
def States (t : WithStatus I.Status Transaction) (s : Statement F) : Prop :=
  t.data.feeExcess = .ok s.feeExcess ∧ t.data.supplyIncrease = .ok s.supplyIncrease

theorem states_canonical {ts : List (WithStatus I.Status Transaction)} {ss : List (Statement F)}
    (h : List.Forall₂ States ts ss) :
    ∀ s ∈ ss, s.feeExcess.Canonical := by
  induction h with
  | nil => simp
  | cons hs _ ih =>
    intro s hmem
    rcases List.mem_cons.1 hmem with rfl | hmem
    · exact Transaction.feeExcess_canonical hs.1
    · exact ih s hmem

theorem states_increases {ts : List (WithStatus I.Status Transaction)} {ss : List (Statement F)}
    (h : List.Forall₂ States ts ss) :
    ts.map (fun t => t.data.supplyIncrease) = (ss.map (·.supplyIncrease)).map .ok := by
  induction h with
  | nil => rfl
  | cons hs _ ih => rw [List.map_cons, List.map_cons, List.map_cons, ih, hs.2]

theorem states_excesses {ts : List (WithStatus I.Status Transaction)} {ss : List (Statement F)}
    (h : List.Forall₂ States ts ss) :
    List.Forall₂ (fun t fe => Transaction.feeExcess t = .ok fe) (ts.map (·.data)) (ss.map (·.feeExcess)) := by
  induction h with
  | nil => exact .nil
  | cons hs _ ih => exact .cons hs.1 ih

theorem applyStep_statement {acc acc' : List (TransactionWithWitness I) × StackStateWithInitStack F × I.Ledger}
    {t : WithStatus I.Status Transaction} (hok : applyStep O b acc t = .ok acc') :
    ∃ d, acc'.1 = d :: acc.1 ∧ d.statement.before = pointOf acc.2.2 acc.2.1.pc.source ∧
      d.statement.after = pointOf acc'.2.2 acc'.2.1.pc.target ∧ acc'.2.1.pc.source = acc'.2.1.pc.target ∧
        States t d.statement := by
  rw [applyStep] at hok
  split at hok
  · cases hok
  · obtain ⟨r, hr, hok⟩ := Exn.andThen_eq_ok.1 hok
    obtain ⟨w, -, hr⟩ := Exn.andThen_eq_ok.1 hr
    obtain ⟨s, hs, hr⟩ := Exn.andThen_eq_ok.1 hr
    obtain ⟨fee, hfee, hs⟩ := Exn.andThen_eq_ok.1 hs
    obtain ⟨supply, hsupply, hs⟩ := Exn.andThen_eq_ok.1 hs
    obtain ⟨applied, -, hs⟩ := Exn.andThen_eq_ok.1 hs
    split at hr
    · cases hs
      cases hr
      cases hok
      exact ⟨_, rfl, rfl, rfl, rfl, hfee, hsupply⟩
    · cases hr

/-- The run of `applyStep`, from a state that its stacks agree in. -/
theorem fold_statements {ts : List (WithStatus I.Status Transaction)}
    {acc r : List (TransactionWithWitness I) × StackStateWithInitStack F × I.Ledger}
    (hok : Exn.fold (applyStep O b) acc ts = .ok r) (hstack : acc.2.1.pc.source = acc.2.1.pc.target) :
    ∃ data : List (TransactionWithWitness I), r.1 = data.reverse ++ acc.1 ∧
      Chained (pointOf acc.2.2 acc.2.1.pc.target) (data.map (·.statement)) (pointOf r.2.2 r.2.1.pc.target) ∧
        List.Forall₂ States ts (data.map (·.statement)) := by
  induction ts generalizing acc with
  | nil =>
    cases hok
    exact ⟨[], rfl, rfl, .nil⟩
  | cons t ts ih =>
    obtain ⟨acc', hstep, hfold⟩ := Exn.fold_cons_eq_ok.1 hok
    obtain ⟨d, hd, hbefore, hafter, hstack', hstates⟩ := applyStep_statement hstep
    obtain ⟨data, hdata, hchained, hrest⟩ := ih hfold hstack'
    rw [hstack] at hbefore
    rw [← hafter] at hchained
    refine ⟨d :: data, ?_, ⟨hbefore, hchained⟩, .cons hstates hrest⟩
    rw [hdata, hd, List.reverse_cons, List.append_assoc]
    rfl

/-- The statements of a block are a chain, from the ledger and the stack before
it to those after it. -/
theorem updateLedgerAndGetStatements_chained {ledger ledger' : I.Ledger} {stack stack' : Stack F}
    {ts : List (WithStatus I.Status Transaction)} {data : List (TransactionWithWitness I)} (hne : data ≠ [])
    (h : updateLedgerAndGetStatements O b ledger stack ts = .ok ((data, stack'), ledger')) :
    Chained (pointOf ledger stack) (data.map (·.statement)) (pointOf ledger' stack') ∧
      List.Forall₂ States ts (data.map (·.statement)) := by
  obtain ⟨r, hfold, h⟩ := Exn.andThen_eq_ok.1 h
  cases h
  cases ts with
  | nil =>
    cases hfold
    exact absurd rfl hne
  | cons t ts =>
    -- The first statement starts at the stack without the block's state.
    obtain ⟨acc', hstep, hfold⟩ := Exn.fold_cons_eq_ok.1 hfold
    obtain ⟨d, hd, hbefore, hafter, hstack, hstates⟩ := applyStep_statement hstep
    obtain ⟨data, hdata, hchained, hrest⟩ := fold_statements hfold hstack
    rw [← hafter] at hchained
    have hreverse : r.1.reverse = d :: data := by
      rw [hdata, hd, List.reverse_append, List.reverse_reverse]
      rfl
    rw [hreverse]
    exact ⟨⟨hbefore, hchained⟩, .cons hstates hrest⟩

end Blocks

/-! ## The proofs of the scan state -/

section Proofs

variable {I : LedgerModule F} [DecidableEq F]

/-- A proof that the scan state has of these transactions: of one, or merged
from the proofs of neighbours. -/
inductive Proved : List (TransactionWithWitness I) → LedgerProofWithSokMessage F → Prop
  | base {d : TransactionWithWitness I} {p : LedgerProofWithSokMessage F} (work : Fee × LedgerProof F × PublicKey)
      (h : completedWorkToScanableWork (.base d) work = .ok p) : Proved [d] p
  | merge {ds ds' : List (TransactionWithWitness I)} {p p' q : LedgerProofWithSokMessage F}
      (work : Fee × LedgerProof F × PublicKey) (hp : Proved ds p) (hp' : Proved ds' p')
      (h : completedWorkToScanableWork (I := I) (.merge p p') work = .ok q) : Proved (ds ++ ds') q

/-- The statement of a merge. -/
theorem completedWork_merge {p p' q : LedgerProofWithSokMessage F} {work : Fee × LedgerProof F × PublicKey}
    (h : completedWorkToScanableWork (I := I) (.merge p p') work = .ok q) :
    q.1.statement.before = p.1.statement.before ∧ q.1.statement.after = p'.1.statement.after ∧
      FeeExcess.combine p.1.statement.feeExcess p'.1.statement.feeExcess = .ok q.1.statement.feeExcess ∧
        Currency.add p.1.statement.supplyIncrease p'.1.statement.supplyIncrease = some q.1.statement.supplyIncrease := by
  obtain ⟨fe, hfe, h⟩ := Exn.andThen_eq_ok.1 h
  obtain ⟨supply, hsupply, h⟩ := Exn.andThen_eq_ok.1 h
  split at h
  · cases h
  · split at h
    · cases h
    · cases h
      cases hadd : Currency.add p.1.statement.supplyIncrease p'.1.statement.supplyIncrease with
      | none =>
        rw [hadd] at hsupply
        cases hsupply
      | some x =>
        rw [hadd] at hsupply
        cases hsupply
        exact ⟨rfl, rfl, hfe, rfl⟩

/-- A statement that sums up a list of statements. -/
structure Sums (ss : List (Statement F)) (s : Statement F) : Prop where
  run : s.feeExcess.run = (ss.map fun s => s.feeExcess.run).prod
  canonical : s.feeExcess.Canonical
  supply : s.supplyIncrease.val = (ss.map fun s => s.supplyIncrease.val).sum

/-- A proof of a chain states where the chain starts and ends, and its sums.
The induction is on how the proof was put together. -/
theorem Proved.sums {ds : List (TransactionWithWitness I)} {p : LedgerProofWithSokMessage F} (hp : Proved ds p) :
    (∀ s ∈ ds.map (·.statement), s.feeExcess.Canonical) → ∀ {a c : Point F}, Chained a (ds.map (·.statement)) c →
      p.1.statement.before = a ∧ p.1.statement.after = c ∧ Sums (ds.map (·.statement)) p.1.statement := by
  induction hp with
  | base _ h =>
    intro hcanonical a c hchained
    cases h
    exact ⟨hchained.1, hchained.2, (mul_one _).symm, hcanonical _ (List.mem_singleton_self _), (Nat.add_zero _).symm⟩
  | merge _ _ _ h ih ih' =>
    intro hcanonical a c hchained
    rw [List.map_append] at hcanonical
    rw [List.map_append, chained_append] at hchained
    obtain ⟨m, hds, hds'⟩ := hchained
    obtain ⟨hbefore, -, hsums⟩ := ih (fun s hs => hcanonical s (List.mem_append_left _ hs)) hds
    obtain ⟨-, hafter, hsums'⟩ := ih' (fun s hs => hcanonical s (List.mem_append_right _ hs)) hds'
    obtain ⟨hq, hq', hfe, hsupply⟩ := completedWork_merge h
    refine ⟨hq.trans hbefore, hq'.trans hafter, ?_, ?_, ?_⟩
    · rw [FeeExcess.combine_run hfe, hsums.run, hsums'.run, List.map_append, List.map_append, List.prod_append]
    · exact FeeExcess.combine_canonical hsums.canonical hsums'.canonical hfe
    · rw [Currency.add_eq_some.1 hsupply, hsums.supply, hsums'.supply, List.map_append, List.map_append,
        List.sum_append]

theorem Proved.ne_nil {ds : List (TransactionWithWitness I)} {p : LedgerProofWithSokMessage F} (hp : Proved ds p) :
    ds ≠ [] := by
  induction hp with
  | base => exact List.cons_ne_nil _ _
  | merge _ _ _ _ ih => exact List.append_ne_nil_of_left_ne_nil ih _

end Proofs

section Proofs

variable {O : RandomOracle F} {I : LedgerModule F} {b : BlockState I} [DecidableEq F] {ledger ledger' : I.Ledger}
  {stack stack' : Stack F} {ts : List (WithStatus I.Status Transaction)} {data : List (TransactionWithWitness I)}

/-- **A proof of all of a block's transactions** leads from the ledger and the
stack before the block to those after it, with the fee excess that
`total_fee_excess` computes and the sum of the supply increases. -/
theorem updateLedgerAndGetStatements_proved {p : LedgerProofWithSokMessage F} {fe : FeeExcess}
    (h : updateLedgerAndGetStatements O b ledger stack ts = .ok ((data, stack'), ledger')) (hp : Proved data p)
    (hfe : totalFeeExcess (ts.map (·.data)) = .ok fe) :
    ∃ (increases : List Amount) (supplyIncrease : Amount),
      ts.map (fun t => t.data.supplyIncrease) = increases.map .ok ∧
        supplyIncrease.val = (increases.map Fin.val).sum ∧
          p.1.statement =
            { source := I.merkleRoot ledger
              target := I.merkleRoot ledger'
              feeExcess := fe
              nextAvailableTokenBefore := I.nextAvailableToken ledger
              nextAvailableTokenAfter := I.nextAvailableToken ledger'
              supplyIncrease
              pendingCoinbaseStackState := ⟨stack, stack'⟩ } := by
  obtain ⟨hchained, hstates⟩ := updateLedgerAndGetStatements_chained hp.ne_nil h
  obtain ⟨hbefore, hafter, hsums⟩ := hp.sums (states_canonical hstates) hchained
  obtain ⟨hrun, hfeCanonical⟩ := totalFeeExcess_run (states_excesses hstates) FeeExcess.empty_canonical hfe
  have hexcess : p.1.statement.feeExcess = fe :=
    hsums.canonical.run_inj hfeCanonical (by
      rw [hsums.run, hrun, FeeExcess.run_empty, one_mul, List.map_map, List.map_map, List.map_map]
      rfl)
  refine ⟨_, p.1.statement.supplyIncrease, states_increases hstates, ?_, ?_⟩
  · rw [hsums.supply, List.map_map, List.map_map, List.map_map]
    rfl
  · generalize p.1.statement = s at hbefore hafter hexcess
    obtain ⟨source, target, supplyIncrease, ⟨source', target'⟩, feeExcess, tokenBefore, tokenAfter⟩ := s
    cases hbefore
    cases hafter
    cases hexcess
    rfl

def someWork : Fee × LedgerProof Nat × PublicKey :=
  (0, ⟨⟨0, 0, 0, ⟨Stack.empty numberOracle, Stack.empty numberOracle⟩, .empty, 2, 2⟩, 0, 0⟩, someReceiver)

/-- A proof of each of two transactions of a block, and the merge of them. -/
theorem someProofs : ∃ (d d' : TransactionWithWitness countLedger) (stack' : Stack Nat) (ledger' : Nat)
    (p p' q : LedgerProofWithSokMessage Nat),
    updateLedgerAndGetStatements numberOracle someBlock (0 : Nat) (Stack.empty numberOracle)
        (withoutStatus [noTransfer, someCoinbase 10]) = .ok (([d, d'], stack'), ledger') ∧
      Proved [d] p ∧ Proved [d'] p' ∧
        completedWorkToScanableWork (I := countLedger) (.merge p p') someWork = .ok q :=
  ⟨_, _, _, _, _, _, _, rfl, .base someWork rfl, .base someWork rfl, rfl⟩

theorem updateLedgerAndGetStatements_proved_sample : ∃ (data : List (TransactionWithWitness countLedger))
    (stack' : Stack Nat) (ledger' : Nat) (q : LedgerProofWithSokMessage Nat) (fe : FeeExcess),
    Proved data q ∧ ∃ (increases : List Amount) (supplyIncrease : Amount),
      (withoutStatus [noTransfer, someCoinbase 10]).map (fun t => t.data.supplyIncrease) = increases.map .ok ∧
        supplyIncrease.val = (increases.map Fin.val).sum ∧
          q.1.statement = ⟨0, ledger', supplyIncrease, ⟨Stack.empty numberOracle, stack'⟩, fe, 2, 2⟩ := by
  obtain ⟨d, d', stack', ledger', p, p', q, h, hp, hp', hq⟩ := someProofs
  exact ⟨[d, d'], stack', ledger', q, .empty, .merge someWork hp hp' hq,
    updateLedgerAndGetStatements_proved h (.merge someWork hp hp' hq) rfl⟩

/-- **Neighbours merge in the same way** for the worker that is given the job
and for the scan state that takes the work in. -/
theorem updateLedgerAndGetStatements_merge {p p' : LedgerProofWithSokMessage F}
    {first ds ds' rest : List (TransactionWithWitness I)}
    (h : updateLedgerAndGetStatements O b ledger stack ts = .ok ((first ++ ds ++ ds' ++ rest, stack'), ledger'))
    (hp : Proved ds p) (hp' : Proved ds' p') (work : Fee × LedgerProof F × PublicKey) (s : Statement F) :
    statementOfJob (I := I) (.merge p p') = some s ↔
      ∃ q, completedWorkToScanableWork (I := I) (.merge p p') work = .ok q ∧ q.1.statement = s := by
  have hne : first ++ ds ++ ds' ++ rest ≠ [] := by
    have := hp.ne_nil
    simp [this]
  obtain ⟨hchained, hstates⟩ := updateLedgerAndGetStatements_chained hne h
  have hcanonical := states_canonical hstates
  rw [List.map_append, List.map_append, List.map_append] at hcanonical
  rw [List.map_append, List.map_append, List.map_append, chained_append] at hchained
  obtain ⟨c, hchained, -⟩ := hchained
  obtain ⟨m, hchained, hds'⟩ := chained_append.1 hchained
  obtain ⟨a, -, hds⟩ := chained_append.1 hchained
  obtain ⟨-, hafter, -⟩ := hp.sums (fun s hs =>
    hcanonical s (List.mem_append_left _ (List.mem_append_left _ (List.mem_append_right _ hs)))) hds
  obtain ⟨hbefore, -, -⟩ := hp'.sums (fun s hs =>
    hcanonical s (List.mem_append_left _ (List.mem_append_right _ hs))) hds'
  have hmeet := hafter.trans hbefore.symm
  rw [Statement.after, Statement.before, Point.mk.injEq] at hmeet
  obtain ⟨hledger, htoken, hstack⟩ := hmeet
  simp only [statementOfJob, completedWorkToScanableWork, hledger, htoken, hstack, ne_eq, not_true_eq_false, if_false]
  cases hfe : FeeExcess.combine p.1.statement.feeExcess p'.1.statement.feeExcess with
  | error e => simp
  | ok fe =>
    cases hsupply : Currency.add p.1.statement.supplyIncrease p'.1.statement.supplyIncrease with
    | none => simp [ScanState.option]
    | some x => simp [ScanState.option]

theorem updateLedgerAndGetStatements_merge_sample : ∃ p p' q : LedgerProofWithSokMessage Nat,
    completedWorkToScanableWork (I := countLedger) (.merge p p') someWork = .ok q ∧
      statementOfJob (I := countLedger) (.merge p p') = some q.1.statement := by
  obtain ⟨d, d', stack', ledger', p, p', q, h, hp, hp', hq⟩ := someProofs
  have hdata : updateLedgerAndGetStatements numberOracle someBlock (0 : Nat) (Stack.empty numberOracle)
      (withoutStatus [noTransfer, someCoinbase 10]) = .ok (([] ++ [d] ++ [d'] ++ [], stack'), ledger') := h
  exact ⟨p, p', q, hq, (updateLedgerAndGetStatements_merge hdata hp hp' someWork _).2 ⟨q, hq, rfl⟩⟩

end Proofs

end StagedLedger

end Mina
