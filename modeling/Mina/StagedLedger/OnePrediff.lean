/-
`one_prediff`: the resources that the loop leaves, and the transactions of the
pre-diff that is made from them.

The slots that are counted and the budget that is checked rest on the accounts
of the provers other than the receiver (`AccountedOthers`), while
`get_transaction_data` adds up the fees of the works themselves. The two agree
when these accounts are right. For each discard of the loop the condition under
which it keeps them (`Discard.Keeps`) is exact; discarding a work of the
receiver does not meet it when the coinbase stays the same and the budget is
adjusted.
-/
import Mina.StagedLedger.ConstraintLoop
import Mina.StagedLedger.PreDiffData

namespace Mina.StagedLedger.Resources

open PreDiffInfo (NonZero getTransactionData getTransactionData_ok ofAlistReduce_nonZero owed_others)

variable {F Status : Type} [DecidableEq F] {c : ConstraintConstants}

def onePrediff (c : ConstraintConstants) (fuel : Nat) (cwSeq : List (TransactionSnarkWork F))
    (tsSeq : List (Command Status)) (receiver : PublicKey) (addCoinbase : Bool) (slots jobCount : Int)
    (isCoinbaseReceiverNew superchargeCoinbase : Bool) : Exn (Option (T F Status)) :=
  (init c tsSeq cwSeq slots jobCount receiver addCoinbase superchargeCoinbase isCoinbaseReceiverNew).andThen
    fun initResources => checkConstraintsAndUpdate c fuel initResources

/-! ## The accounts of the other provers -/

/-- A selection accounts for every other prover exactly when it loses no work
of theirs. -/
theorem accounts_iff_noneLostOthers {receiverPk : PublicKey} {works ts : List (TransactionSnarkWork F)}
    (hsub : (paid ts).Subperm (works.filter fun w => 0 < w.fee ∧ w.statement ∈ ts.map (·.statement))) :
    (∀ p, receiverPk ≠ p → FeeMap.owed (entries (diff works (ts.map (·.statement)))) p +
      FeeMap.owed (entries (paid ts)) p = FeeMap.owed (entries works) p) ↔ NoneLostOthers receiverPk works ts := by
  obtain ⟨paid', hperm, hsublist⟩ := hsub
  obtain ⟨lost, hlost⟩ := hsublist.exists_perm_append
  have hpos : ∀ w ∈ ofOthers receiverPk lost, 0 < w.fee := by
    intro w hw
    have := (List.mem_filter.1 (hlost.mem_iff.2 (List.mem_append_right _ (List.mem_of_mem_filter hw)))).2
    exact (of_decide_eq_true this).1
  have hlength : (ofOthers receiverPk (works.filter fun w => 0 < w.fee ∧ w.statement ∈ ts.map (·.statement))).length =
      (ofOthers receiverPk (paid ts)).length + (ofOthers receiverPk lost).length := by
    rw [ofOthers, (hlost.filter _).length_eq, List.filter_append, List.length_append, (hperm.filter _).length_eq]
    rfl
  have howed : ∀ p, FeeMap.owed (entries works) p = FeeMap.owed (entries (paid ts)) p +
      FeeMap.owed (entries lost) p + FeeMap.owed (entries (diff works (ts.map (·.statement)))) p := by
    intro p
    rw [owed_entries_split works (ts.map (·.statement)), owed_entries_perm hlost, owed_entries_append,
      owed_entries_perm hperm]
  rw [NoneLostOthers, hlength, Nat.add_eq_left, List.length_eq_zero_iff]
  constructor
  · intro h
    refine eq_nil_of_owed hpos fun p => ?_
    rw [ofOthers, owed_others]
    split_ifs with hp
    · have := h p hp
      have := howed p
      omega
    · rfl
  · intro h p hp
    have hnone := owed_others receiverPk p lost
    rw [← ofOthers, h, if_pos hp] at hnone
    have : FeeMap.owed (entries ([] : List (TransactionSnarkWork F))) p = 0 := rfl
    have := howed p
    omega

theorem selected_others_iff {receiverPk : PublicKey} {works ts : List (TransactionSnarkWork F)}
    {coinbase : AtMostTwo CoinbaseFeeTransfer} {feeTransfers : FeeMap PublicKey}
    (hcoinbase : coinbase.toList = (paid ts).map transfer)
    (hmap : FeeMap.ofAlistReduce (singles (diff works (ts.map (·.statement)))) = .ok feeTransfers)
    (hsub : (paid ts).Subperm (works.filter fun w => 0 < w.fee ∧ w.statement ∈ ts.map (·.statement))) :
    (∀ p, receiverPk ≠ p → FeeMap.amount feeTransfers p + FeeMap.owed (coinbaseEntries coinbase) p =
      FeeMap.owed (entries works) p) ↔ NoneLostOthers receiverPk works ts := by
  rw [← accounts_iff_noneLostOthers hsub, coinbaseEntries_eq hcoinbase]
  refine forall_congr' fun p => ?_
  rw [(FeeMap.ofAlistReduce_eq_ok hmap p).1, owed_singles]

/-- The accounts of the other provers after works have been selected again,
with any budget. -/
theorem Reselected.accountedOthers_iff {t newT : T F Status} (h : Reselected c t newT)
    (budget : Except String Fee) : AccountedOthers { newT with budget } ↔
      NoneLostOthers t.receiverPk t.completedWorkRev (reselectTaken c t) ∧
        ∀ b, budget = .ok b → b.val + owedOthers t.receiverPk t.completedWorkRev =
          (t.commandsRev.map (feeOf commandFee)).sum + selectedOthers c t := by
  have hprovers := @selected_others_iff F _ t.receiverPk _ _ _ _ h.coinbase h.feeTransfers (reselectTaken_subperm t)
  have hothers : coinbaseOthers { newT with budget } = selectedOthers c t := by
    rw [coinbaseOthers, coinbaseEntries_eq h.coinbase, selectedOthers, owedOthers, h.eq]
  have hsame : newT.receiverPk = t.receiverPk ∧ newT.completedWorkRev = t.completedWorkRev ∧
      newT.commandsRev = t.commandsRev := by
    rw [h.eq]
    exact ⟨rfl, rfl, rfl⟩
  obtain ⟨hreceiver, hworks, hcommands⟩ := hsame
  have haccounts : (∀ p, newT.receiverPk ≠ p → ProverAccounted { newT with budget } p) ↔
      NoneLostOthers t.receiverPk t.completedWorkRev (reselectTaken c t) := by
    rw [← hprovers, hreceiver, ← hworks]
    exact Iff.rfl
  have hbudget : ∀ hlost : NoneLostOthers t.receiverPk t.completedWorkRev (reselectTaken c t),
      BudgetAccounted { newT with budget } ↔ ∀ b, budget = .ok b →
        b.val + owedOthers t.receiverPk t.completedWorkRev =
          (t.commandsRev.map (feeOf commandFee)).sum + selectedOthers c t := by
    intro hlost
    refine forall_congr' fun b => imp_congr_right fun _ => ?_
    have := budget_iff (t := { newT with budget }) (haccounts.2 hlost) b
    rw [hothers] at this
    dsimp only at this
    rw [hreceiver, hworks, hcommands] at this
    dsimp only
    rw [hreceiver, hcommands]
    exact this
  exact ⟨fun h' => ⟨haccounts.1 h'.provers, (hbudget (haccounts.1 h'.provers)).1 h'.budget⟩,
    fun h' => ⟨haccounts.2 h'.1, (hbudget h'.1).2 h'.2⟩⟩

/-! ## The discards of the loop -/

inductive Discard where
  | work
  | command
deriving DecidableEq

namespace Discard

def operation : Discard → Operation
  | .work => .discardLastWork
  | .command => .discardUserCommand

/-- The condition under which a discard keeps the accounts of the other
provers: the selection loses no work of theirs, with a budget that is adjusted
the coinbase pays them as much more as the receiver's work cost, and a fee
transfer that is moved to the map finds nothing there. -/
def Keeps (c : ConstraintConstants) (t : T F Status) : Discard → Prop
  | .work => ∀ w rem, t.completedWorkRev = w :: rem →
    NoneLostOthers t.receiverPk rem (reselectTaken c { t with completedWorkRev := rem }) ∧
      ∀ b, t.budget = .ok b → b.val + w.fee.val < 2 ^ 64 →
        selectedOthers c { t with completedWorkRev := rem } =
          coinbaseOthers t + if t.receiverPk = w.prover then w.fee.val else 0
  | .command => t.commandsRev = [] → ∀ ft, movedFeeTransfer t.coinbase = some ft →
    t.receiverPk ≠ ft.receiverPk → FeeMap.amount t.feeTransfers ft.receiverPk = 0

theorem accountedOthers_iff {t t' : T F Status} {discard : Discard} (ht : AccountedOthers t)
    (h : discard.operation.apply c t = .ok t') : AccountedOthers t' ↔ discard.Keeps c t := by
  cases discard with
  | work =>
    cases hworks : t.completedWorkRev with
    | nil =>
      rw [discardLastWork_nothing hworks h]
      refine ⟨fun _ w rem hcons => ?_, fun _ => ht⟩
      rw [hworks] at hcons
      cases hcons
    | cons w rem =>
      obtain ⟨r, hr, h⟩ := Exn.andThen_eq_ok.1 h
      cases h
      obtain ⟨newT, budget, hre, rfl, hok, herror⟩ := discardLastWork_cons hworks hr
      have hkeeps : Discard.Keeps c t .work ↔
          NoneLostOthers t.receiverPk rem (reselectTaken c { t with completedWorkRev := rem }) ∧
            ∀ b, t.budget = .ok b → b.val + w.fee.val < 2 ^ 64 →
              selectedOthers c { t with completedWorkRev := rem } =
                coinbaseOthers t + if t.receiverPk = w.prover then w.fee.val else 0 := by
        refine ⟨fun h => h w rem hworks, fun h w' rem' hcons => ?_⟩
        rw [hworks] at hcons
        obtain ⟨rfl, rfl⟩ := List.cons.inj hcons
        exact h
      rw [hkeeps]
      refine (hre.accountedOthers_iff budget).trans (and_congr_right fun hlost => ?_)
      have hprovers := (selected_others_iff hre.coinbase hre.feeTransfers (reselectTaken_subperm _)).2 hlost
      exact discardLastWork_budget_iff (t := t) hworks ht hre hprovers hok herror
  | command =>
    obtain ⟨hreceiver, hprovers, hbudget⟩ := discardUserCommand_keeps h
    refine ⟨fun h' hnil ft hmoved hother => ?_, fun hkeeps => ⟨fun p hp => ?_, hbudget ht.budget⟩⟩
    · have hafter := h'.provers ft.receiverPk (hreceiver ▸ hother)
      exact (hprovers _ (ht.provers _ hother)).1 hafter hnil ft hmoved rfl
    · rw [hreceiver] at hp
      exact (hprovers p (ht.provers p hp)).2 fun hnil ft hmoved heq => heq ▸ hkeeps hnil ft hmoved (heq ▸ hp)

end Discard

/-- What the loop discards next, if it goes on. -/
def nextDiscard (c : ConstraintConstants) (resources : T F Status) : Exn (Option Discard) :=
  if slotsOccupied resources = 0 then .ok none
  else if workConstraintSatisfied resources then
    if budgetSufficient resources then
      if spaceConstraintSatisfied resources then .ok none
      else (workedMore c resources).andThen fun more => .ok (some (if more then .work else .command))
    else .ok (some .work)
  else .ok (some .command)

/-- The loop discards until there is nothing to discard next. -/
theorem checkConstraintsAndUpdate_succ (fuel : Nat) (t : T F Status) :
    checkConstraintsAndUpdate c (fuel + 1) t = (nextDiscard c t).andThen fun next =>
      next.elim (.ok (some t)) fun discard =>
        (discard.operation.apply c t).andThen fun t' => checkConstraintsAndUpdate c fuel t' := by
  have work : (discardLastWork c t).andThen (fun r => checkConstraintsAndUpdate c fuel r.1) =
      (Discard.work.operation.apply c t).andThen fun t' => checkConstraintsAndUpdate c fuel t' := by
    rw [Discard.operation, Operation.apply]
    cases discardLastWork c t <;> rfl
  have command : (discardUserCommand t).andThen (fun r => checkConstraintsAndUpdate c fuel r.1) =
      (Discard.command.operation.apply c t).andThen fun t' => checkConstraintsAndUpdate c fuel t' := by
    rw [Discard.operation, Operation.apply]
    cases discardUserCommand t <;> rfl
  rw [checkConstraintsAndUpdate, nextDiscard, work, command]
  split
  next => rfl
  next =>
    split
    next =>
      split
      next =>
        split
        next => rfl
        next =>
          cases workedMore c t with
          | error e => rfl
          | ok more => cases more <;> rfl
      next => rfl
    next => rfl

/-- Every discard of the loop meets its condition. -/
def KeepsThroughout (c : ConstraintConstants) : Nat → T F Status → Prop
  | 0, _ => True
  | fuel + 1, t => ∀ discard t', nextDiscard c t = .ok (some discard) → discard.operation.apply c t = .ok t' →
    discard.Keeps c t ∧ KeepsThroughout c fuel t'

/-- What each discard keeps, with the iterations that are left, the loop
keeps. -/
theorem checkConstraintsAndUpdate_induction {P : Nat → T F Status → Prop}
    (hstep : ∀ fuel (discard : Discard) (t t' : T F Status), P (fuel + 1) t → nextDiscard c t = .ok (some discard) →
      discard.operation.apply c t = .ok t' → P fuel t') :
    ∀ fuel (t t' : T F Status), P fuel t → checkConstraintsAndUpdate c fuel t = .ok (some t') → ∃ fuel', P fuel' t'
  | 0, t, t', _, h => by cases h
  | fuel + 1, t, t', ht, h => by
    rw [checkConstraintsAndUpdate_succ] at h
    obtain ⟨next, hnext, h⟩ := Exn.andThen_eq_ok.1 h
    cases next with
    | none =>
      cases h
      exact ⟨fuel + 1, ht⟩
    | some discard =>
      obtain ⟨t1, happly, h⟩ := Exn.andThen_eq_ok.1 h
      exact checkConstraintsAndUpdate_induction hstep fuel t1 t' (hstep fuel discard t t1 ht hnext happly) h

/-- The accounts of the other provers are kept by discards that meet their
conditions. -/
theorem KeepsThroughout.accountedOthers {fuel : Nat} {t t' : T F Status} (hkeeps : KeepsThroughout c fuel t)
    (ht : AccountedOthers t) (h : checkConstraintsAndUpdate c fuel t = .ok (some t')) : AccountedOthers t' := by
  have hrun := checkConstraintsAndUpdate_induction (P := fun fuel t => AccountedOthers t ∧ KeepsThroughout c fuel t)
    (fun fuel discard t t1 ht hnext happly => by
      obtain ⟨hkeep, hrest⟩ := ht.2 discard t1 hnext happly
      exact ⟨(Discard.accountedOthers_iff ht.1 happly).2 hkeep, hrest⟩) fuel t t' ⟨ht, hkeeps⟩ h
  obtain ⟨_, hafter, -⟩ := hrun
  exact hafter

/-! ## What the loop keeps -/

theorem mem_paid_coinbaseTaken {works : List (TransactionSnarkWork F)} {amount : Option Amount}
    {isCoinbaseReceiverNew superchargeCoinbase : Bool}
    (hamount : coinbaseAmount superchargeCoinbase c = .ok amount) {w : TransactionSnarkWork F}
    (hw : w ∈ paid (coinbaseTaken c false works isCoinbaseReceiverNew superchargeCoinbase)) :
    0 < w.fee ∧ ∀ a ∈ amount, w.fee ≤ a := by
  cases amount with
  | none =>
    rw [coinbaseTaken, hamount] at hw
    cases hw
  | some amount =>
  rw [coinbaseTaken, hamount] at hw
  dsimp only at hw
  split at hw
  next budget hbudget =>
    split at hw
    next =>
      obtain ⟨_, _, _, hsorted⟩ := taken_perm false works amount budget
      refine ⟨paid_positive hsorted w hw, fun a ha => ?_⟩
      cases ha
      have hsum := (@affordable_iff F false works amount budget).2 fun _ _ h => (by cases h)
      have hle : w.fee.val ≤ ((paid (taken false works amount budget)).map (·.fee.val)).sum :=
        List.le_sum_of_mem (List.mem_map_of_mem hw)
      have hbudget_le : budget.val ≤ amount.val := by
        rw [coinbaseBudget] at hbudget
        split at hbudget
        next =>
          obtain ⟨hle, hval⟩ := Currency.sub_eq_some.1 hbudget
          omega
        next =>
          cases hbudget
          exact Nat.le_refl _
      exact Fin.le_def.2 (hle.trans (hsum.trans hbudget_le))
    next => cases hw
  next => cases hw

theorem mem_paid_reselectTaken {t : T F Status} {amount : Option Amount}
    (hamount : coinbaseAmount t.superchargeCoinbase c = .ok amount) (hparts : t.coinbase.parts ≤ 1)
    {w : TransactionSnarkWork F} (hw : w ∈ paid (reselectTaken c t)) : 0 < w.fee ∧ ∀ a ∈ amount, w.fee ≤ a := by
  rw [reselectTaken.eq_def] at hw
  cases hcoinbase : t.coinbase with
  | zero =>
    rw [hcoinbase] at hw
    cases hw
  | one x =>
    rw [hcoinbase] at hw
    exact mem_paid_coinbaseTaken hamount hw
  | two x =>
    rw [hcoinbase, AtMostTwo.parts] at hparts
    omega

omit [DecidableEq F] in
theorem singles_ne_zero {works : List (TransactionSnarkWork F)} {e : PublicKey × Fee} (h : e ∈ singles works) :
    e.2 ≠ 0 := by
  have := (List.mem_filter.1 ((singles_perm works).mem_iff.1 h)).2
  exact of_decide_eq_true this

/-- What holds of the resources in every iteration: at most one part of the
coinbase, which the coinbase amount pays for, and no empty fee transfers. -/
structure Payable (c : ConstraintConstants) (slots jobCount : Int) (receiver : PublicKey) (amount : Option Amount)
    (t : T F Status) : Prop where
  space : t.maxSpace = slots
  jobs : t.maxJobs = jobCount
  receiver : t.receiverPk = receiver
  parts : t.coinbase.parts ≤ 1
  fees : ∀ ft ∈ t.coinbase.toList, 0 < ft.fee ∧ ∀ a ∈ amount, ft.fee ≤ a
  nonZero : NonZero t.feeTransfers
  amount : coinbaseAmount t.superchargeCoinbase c = .ok amount

theorem nonZero_insert {m : FeeMap PublicKey} (hm : NonZero m) {key : PublicKey} {fee : Fee} (hfee : 0 < fee) :
    NonZero (m.insert key fee) := by
  intro key' hkey'
  rw [FeeMap.amount_insert]
  split
  next => exact Fin.lt_def.1 hfee
  next hne =>
    refine hm key' ((Std.ExtTreeMap.mem_insert.1 hkey').resolve_left fun heq => hne ?_)
    exact compare_eq_iff_eq.1 heq

namespace Payable

variable {slots jobCount : Int} {receiver : PublicKey} {amount : Option Amount} {t t' : T F Status}

theorem discard (h : Payable c slots jobCount receiver amount t) {discard : Discard}
    (happly : discard.operation.apply c t = .ok t') :
    Payable c slots jobCount receiver amount t' ∧ t'.coinbase.parts ≤ t.coinbase.parts := by
  have := h.parts
  cases discard with
  | work =>
    cases hworks : t.completedWorkRev with
    | nil =>
      rw [discardLastWork_nothing hworks happly]
      exact ⟨h, Nat.le_refl _⟩
    | cons w rem =>
      obtain ⟨r, hr, happly⟩ := Exn.andThen_eq_ok.1 happly
      cases happly
      obtain ⟨newT, budget, hre, rfl, -, -⟩ := discardLastWork_cons hworks hr
      have hsame : newT.maxSpace = t.maxSpace ∧ newT.maxJobs = t.maxJobs ∧ newT.receiverPk = t.receiverPk ∧
          newT.superchargeCoinbase = t.superchargeCoinbase := by
        rw [hre.eq]
        exact ⟨rfl, rfl, rfl, rfl⟩
      obtain ⟨hspace, hjobs, hreceiver, hsupercharge⟩ := hsame
      refine ⟨⟨hspace.trans h.space, hjobs.trans h.jobs, hreceiver.trans h.receiver, hre.parts.trans_le h.parts,
        fun ft hft => ?_, ofAlistReduce_nonZero hre.feeTransfers fun e he => singles_ne_zero he, ?_⟩, hre.parts.le⟩
      · dsimp only at hft
        rw [hre.coinbase] at hft
        obtain ⟨w', hw', rfl⟩ := List.mem_map.1 hft
        exact @mem_paid_reselectTaken F Status _ c { t with
          completedWorkRev := rem
          discarded := t.discarded.addCompletedWork w } amount h.amount h.parts w' hw'
      · dsimp only
        rw [hsupercharge]
        exact h.amount
  | command =>
    obtain ⟨r, hr, happly⟩ := Exn.andThen_eq_ok.1 happly
    cases happly
    cases hcommands : t.commandsRev with
    | nil =>
      rw [discardUserCommand_nil hcommands] at hr
      obtain ⟨t', ht', hr⟩ := Exn.andThen_eq_ok.1 hr
      cases hr
      rcases decrCoinbase_eq_ok ht' with hfree | hpaid
      · obtain ⟨coinbase, -, rfl, hlist, hparts⟩ := hfree
        exact ⟨⟨h.space, h.jobs, h.receiver, by dsimp only; omega, fun ft hft => h.fees ft (hlist ▸ hft), h.nonZero,
          h.amount⟩, by dsimp only; omega⟩
      · obtain ⟨ft, coinbase, budget, -, rfl, hlist, hparts, -⟩ := hpaid
        refine ⟨⟨h.space, h.jobs, h.receiver, by dsimp only; omega, fun ft' hft' => ?_, ?_, h.amount⟩,
          by dsimp only; omega⟩
        · exact h.fees ft' (hlist ▸ List.mem_append_left _ hft')
        · exact nonZero_insert h.nonZero (h.fees ft (by simp [hlist])).1
    | cons uc rem =>
      obtain ⟨budget, rfl, -, -⟩ := discardUserCommand_cons hcommands hr
      exact ⟨⟨h.space, h.jobs, h.receiver, h.parts, h.fees, h.nonZero, h.amount⟩, Nat.le_refl _⟩

/-- The loop keeps it, and adds no part to the coinbase. -/
theorem loop (h : Payable c slots jobCount receiver amount t) {fuel : Nat}
    (hend : checkConstraintsAndUpdate c fuel t = .ok (some t')) :
    Payable c slots jobCount receiver amount t' ∧ t'.coinbase.parts ≤ t.coinbase.parts := by
  have hrun := checkConstraintsAndUpdate_induction
    (P := fun _ t' => Payable c slots jobCount receiver amount t' ∧ t'.coinbase.parts ≤ t.coinbase.parts)
    (fun _ discard t1 t2 h1 _ happly => by
      obtain ⟨h2, hfewer⟩ := h1.1.discard happly
      exact ⟨h2, hfewer.trans h1.2⟩) fuel t t' ⟨h, Nat.le_refl _⟩ hend
  obtain ⟨_, hafter⟩ := hrun
  exact hafter

end Payable

/-! ## From the start -/

theorem initCoinbaseAndFeeTransfers_parts {cwSeq : List (TransactionSnarkWork F)}
    {addCoinbase isCoinbaseReceiverNew superchargeCoinbase : Bool} {jobCount slots : Int}
    {r : AtMostTwo CoinbaseFeeTransfer × List (PublicKey × Fee)}
    (h : initCoinbaseAndFeeTransfers c cwSeq addCoinbase jobCount slots isCoinbaseReceiverNew superchargeCoinbase =
      .ok r) : r.1.parts ≤ if addCoinbase then 1 else 0 := by
  obtain ⟨choice, hwork, h⟩ := Exn.andThen_eq_ok.1 h
  obtain ⟨-, hsome⟩ := coinbaseWork_eq_ok hwork
  split at h
  next chosen _ =>
    cases h
    exact (hsome chosen rfl).1.le
  next =>
    split at h
    next =>
      cases h
      exact Nat.le_refl _
    next =>
      cases h
      exact Nat.zero_le _
  next =>
    cases h
    exact Nat.zero_le _

section Init

variable {ucSeq : List (Command Status)} {cwSeq : List (TransactionSnarkWork F)} {slots jobCount : Int}
  {receiver : PublicKey} {addCoinbase superchargeCoinbase isCoinbaseReceiverNew : Bool} {t : T F Status}

theorem init_accountedOthers_iff
    (h : init c ucSeq cwSeq slots jobCount receiver addCoinbase superchargeCoinbase isCoinbaseReceiverNew = .ok t) :
    AccountedOthers t ↔
      NoneLostOthers receiver cwSeq (initTaken c cwSeq addCoinbase isCoinbaseReceiverNew superchargeCoinbase) := by
  obtain ⟨-, -, hreceiver, -, hworks, hlist, hmap⟩ := init_eq_ok h
  have hreverse : ∀ p, FeeMap.owed (entries t.completedWorkRev) p = FeeMap.owed (entries cwSeq) p := by
    rw [hworks]
    exact owed_entries_perm (List.reverse_perm cwSeq)
  rw [← selected_others_iff hlist hmap (initTaken_subperm _ _ _ _), ← hreceiver]
  exact ⟨fun h' p hp => (h'.provers p hp).trans (hreverse p),
    fun h' => ⟨fun p hp => (h' p hp).trans (hreverse p).symm, init_budgetAccounted h⟩⟩

theorem init_parts
    (h : init c ucSeq cwSeq slots jobCount receiver addCoinbase superchargeCoinbase isCoinbaseReceiverNew = .ok t) :
    t.coinbase.parts ≤ if addCoinbase then 1 else 0 := by
  obtain ⟨r, hr, h⟩ := Exn.andThen_eq_ok.1 h
  obtain ⟨feeTransfers, -, h⟩ := Exn.andThen_eq_ok.1 h
  obtain ⟨revenue, -, h⟩ := Exn.andThen_eq_ok.1 h
  obtain ⟨cost, -, h⟩ := Exn.andThen_eq_ok.1 h
  cases h
  exact initCoinbaseAndFeeTransfers_parts hr

theorem Payable.init {amount : Option Amount}
    (h : init c ucSeq cwSeq slots jobCount receiver addCoinbase superchargeCoinbase isCoinbaseReceiverNew = .ok t)
    (hamount : coinbaseAmount superchargeCoinbase c = .ok amount) :
    Payable c slots jobCount receiver amount t := by
  obtain ⟨hspace, hjobs, hreceiver, hsupercharge, -, hlist, hmap⟩ := init_eq_ok h
  have hparts := init_parts h
  refine ⟨hspace, hjobs, hreceiver, by split at hparts <;> omega, fun ft hft => ?_,
    ofAlistReduce_nonZero hmap fun e he => singles_ne_zero he, hsupercharge ▸ hamount⟩
  rw [hlist] at hft
  obtain ⟨w, hw, rfl⟩ := List.mem_map.1 hft
  rw [initTaken] at hw
  split at hw
  next => exact mem_paid_coinbaseTaken hamount hw
  next => cases hw

/-- The initial resources are there when the sums do not overflow. -/
theorem exists_init {amount : Option Amount} (hs : Sums ucSeq cwSeq)
    (hamount : coinbaseAmount superchargeCoinbase c = .ok amount) :
    ∃ t, init c ucSeq cwSeq slots jobCount receiver addCoinbase superchargeCoinbase isCoinbaseReceiverNew =
      .ok (t : T F Status) := by
  obtain ⟨choice, hchoice⟩ := exists_coinbaseWork hamount false cwSeq isCoinbaseReceiverNew
  have hr : ∃ r, initCoinbaseAndFeeTransfers c cwSeq addCoinbase jobCount slots isCoinbaseReceiverNew
      superchargeCoinbase = .ok r := ⟨_, by rw [initCoinbaseAndFeeTransfers, hchoice, Exn.andThen_ok]⟩
  obtain ⟨r, hr⟩ := hr
  obtain ⟨-, -, hsingles⟩ := initCoinbaseAndFeeTransfers_eq_ok hr
  have hlt : ((diff cwSeq ((initTaken c cwSeq addCoinbase isCoinbaseReceiverNew superchargeCoinbase).map
      (·.statement))).map (·.fee.val)).sum < 2 ^ 64 :=
    (sum_map_le_of_sublist List.filter_sublist _).trans_lt hs.sum_works_lt
  obtain ⟨feeTransfers, hmap⟩ := exists_feeTransfers hlt
  obtain ⟨revenue, hrevenue⟩ := hs.commands
  have hcost : ∃ cost, sumFees (fun e => .ok e.2) (r.2.filter fun e => e.1 ≠ receiver) = .ok (.ok cost) := by
    refine sumFees_ok (fun e _ => ⟨e.2, rfl⟩) (lt_of_le_of_lt (sum_map_le_of_sublist List.filter_sublist _) ?_)
    rw [hsingles]
    exact (sum_singles_le _).trans_lt hlt
  obtain ⟨cost, hcost⟩ := hcost
  exact ⟨_, by rw [init, hr, Exn.andThen_ok, hsingles, hmap, Exn.andThen_ok, hrevenue, Exn.andThen_ok, ← hsingles,
    hcost, Exn.andThen_ok]⟩

/-- What `one_prediff` returns. -/
structure IsPrediff (c : ConstraintConstants) (cwSeq : List (TransactionSnarkWork F)) (tsSeq : List (Command Status))
    (receiver : PublicKey) (addCoinbase : Bool) (slots jobCount : Int) (amount : Option Amount) (t : T F Status) :
    Prop where
  met : slotsOccupied t = 0 ∨ ConstraintsSatisfied t
  loop : Loop c tsSeq cwSeq t
  payable : Payable c slots jobCount receiver amount t
  parts : t.coinbase.parts ≤ if addCoinbase then 1 else 0

/-- From the initial resources the loop ends; without works it does so with no
space for a slot as well. -/
theorem onePrediff_ends {amount : Option Amount} (hs : Sums ucSeq cwSeq) (hspace : 1 ≤ slots ∨ cwSeq = [])
    (hamount : coinbaseAmount superchargeCoinbase c = .ok amount) :
    ∃ t0 fuel t,
      init c ucSeq cwSeq slots jobCount receiver addCoinbase superchargeCoinbase isCoinbaseReceiverNew = .ok t0 ∧
      checkConstraintsAndUpdate c fuel t0 = .ok (some t) ∧
      (∀ fuel' ≥ fuel, onePrediff c fuel' cwSeq ucSeq receiver addCoinbase slots jobCount isCoinbaseReceiverNew
        superchargeCoinbase = .ok (some t)) ∧
      IsPrediff c cwSeq ucSeq receiver addCoinbase slots jobCount amount t := by
  obtain ⟨t0, hinit⟩ := @exists_init F Status _ c ucSeq cwSeq slots jobCount receiver addCoinbase superchargeCoinbase
    isCoinbaseReceiverNew amount hs hamount
  obtain ⟨fuel, t, hend, hmet, hloop⟩ :=
    Loop.terminates hs (size t0 + 1) t0 (Nat.lt_succ_self _) (.init hinit hs hspace)
  have hfinal := hend fuel (Nat.le_refl _)
  obtain ⟨hpayable, hparts⟩ := (Payable.init hinit hamount).loop hfinal
  refine ⟨t0, fuel, t, hinit, hfinal, fun fuel' hfuel => ?_, hmet, hloop, hpayable, hparts.trans (init_parts hinit)⟩
  rw [onePrediff, hinit, Exn.andThen_ok]
  exact hend fuel' hfuel

omit [DecidableEq F] in
/-- The transactions of a pre-diff that is made from resources with a slot and
the right accounts. -/
theorem IsPrediff.transactions {amount : Amount}
    (h : IsPrediff c cwSeq ucSeq receiver addCoinbase slots jobCount (some amount) t) (hs : Sums ucSeq cwSeq)
    (haccounts : AccountedOthers t) (hslots : slotsOccupied t ≠ 0) :
    ∃ data, getTransactionData c t.coinbase receiver amount t.commandsRev.reverse t.completedWorkRev.reverse =
        .ok (.ok data) ∧ data.count = slotsOccupied t ∧ (slotsOccupied t : Int) ≤ slots := by
  have hmet := h.met.resolve_left hslots
  obtain ⟨b, hb⟩ := (budget_cases t).resolve_left fun herror => by
    have := hmet.budget
    rw [budgetSufficient, herror] at this
    cases this
  have hfees : ∃ fees, sumFees commandFee t.commandsRev.reverse = .ok (.ok fees) := by
    obtain ⟨fees, hfees⟩ := hs.exists_sumFees h.loop.commands_sublist
    refine sumFees_ok (fun uc huc => hs.fee_ok uc (h.loop.commands_sublist.subset (List.mem_reverse.1 huc))) ?_
    rw [List.map_reverse, List.sum_reverse, ← sumFees_eq_ok hfees]
    exact fees.isLt
  obtain ⟨fees, hfees⟩ := hfees
  have hval := sumFees_eq_ok hfees
  rw [List.map_reverse, List.sum_reverse] at hval
  have hlt := h.loop.sum_works_lt hs
  rw [← List.sum_reverse, ← List.map_reverse] at hlt
  have hbudget := haccounts.budget b hb
  rw [h.payable.receiver] at hbudget
  obtain ⟨data, hdata, hcount⟩ := @getTransactionData_ok F Status c t.coinbase receiver amount t.commandsRev.reverse
    t.completedWorkRev.reverse t.feeTransfers b fees h.payable.parts
    (fun ft hft => (h.payable.fees ft hft).2 amount rfl) hfees hlt h.payable.nonZero
    (fun p hp => (haccounts.provers p (h.payable.receiver.symm ▸ hp)).trans
      (owed_entries_perm (List.reverse_perm t.completedWorkRev) p).symm) (hbudget.trans hval.symm)
  refine ⟨data, hdata, hcount.trans ?_, ?_⟩
  · rw [slotsOccupied_eq, hb, h.payable.receiver, List.length_reverse]
    rfl
  · have := hmet.space
    rw [spaceConstraintSatisfied, decide_eq_true_iff, h.payable.space] at this
    exact this

/-- **When a pre-diff can be applied.** For commands and works whose fees sum
without overflow and space for a slot: if the initial selection loses no work
of another prover, and every discard of the loop meets its condition, then
`one_prediff` returns resources of which, if they occupy a slot, the
transactions can be computed; these are as many as the slots that are occupied,
and fit the space. -/
theorem onePrediff_applies {commandFees workFees : Fee} {amount : Amount}
    (hcommands : sumFees commandFee ucSeq = .ok (.ok commandFees))
    (hworks : sumFees (fun w => .ok w.fee) cwSeq = .ok (.ok workFees)) (hslots : 1 ≤ slots)
    (hamount : coinbaseAmount superchargeCoinbase c = .ok (some amount))
    (hlost : NoneLostOthers receiver cwSeq (initTaken c cwSeq addCoinbase isCoinbaseReceiverNew superchargeCoinbase))
    (hkeeps : ∀ t, init c ucSeq cwSeq slots jobCount receiver addCoinbase superchargeCoinbase
      isCoinbaseReceiverNew = .ok t → ∀ fuel, KeepsThroughout c fuel t) :
    ∃ fuel t, (∀ fuel' ≥ fuel, onePrediff c fuel' cwSeq ucSeq receiver addCoinbase slots jobCount
        isCoinbaseReceiverNew superchargeCoinbase = .ok (some t)) ∧
      (slotsOccupied t ≠ 0 → ∃ data, getTransactionData c t.coinbase receiver amount t.commandsRev.reverse
          t.completedWorkRev.reverse = .ok (.ok data) ∧
        data.count = slotsOccupied t ∧ (slotsOccupied t : Int) ≤ slots) := by
  have hs : Sums ucSeq cwSeq := ⟨⟨commandFees, hcommands⟩, ⟨workFees, hworks⟩⟩
  obtain ⟨t0, fuel, t, hinit, hend, hreturns, ht⟩ :=
    @onePrediff_ends F Status _ c ucSeq cwSeq slots jobCount receiver addCoinbase superchargeCoinbase
      isCoinbaseReceiverNew (some amount) hs (.inl hslots) hamount
  exact ⟨fuel, t, hreturns,
    ht.transactions hs ((hkeeps t0 hinit fuel).accountedOthers ((init_accountedOthers_iff hinit).2 hlost) hend)⟩

end Init

theorem exists_of_toOption_any {ε α : Type} {x : Except ε α} {p : α → Bool} (h : x.toOption.any p = true) :
    ∃ a, x = .ok a ∧ p a = true := by
  cases x with
  | error e => cases h
  | ok a => exact ⟨a, rfl, h⟩

namespace Sample

/-- Three works of the same fee, of which the receiver, with the key 4, has
the first and the last. -/
def receiversWorks : List (TransactionSnarkWork Nat) := [work 1 4 5, work 2 1 5, work 3 4 5]

end Sample

/-- The budget does not pay for the second work, which is discarded. -/
theorem onePrediff_applies_sample :
    ∃ fuel t, (∀ fuel' ≥ fuel, onePrediff Sample.constants fuel' Sample.works [Sample.command 3 15] ⟨4, false⟩ false 2
        1 false false = .ok (some t)) ∧
      (slotsOccupied t ≠ 0 → ∃ data, getTransactionData Sample.constants t.coinbase ⟨4, false⟩ 20
          t.commandsRev.reverse t.completedWorkRev.reverse = .ok (.ok data) ∧
        data.count = slotsOccupied t ∧ (slotsOccupied t : Int) ≤ 2) := by
  refine onePrediff_applies rfl rfl (by decide) rfl (by decide) fun t hinit fuel => ?_
  cases hinit
  cases fuel with
  | zero => trivial
  | succ fuel =>
    intro discard t' hnext happly
    have hwork := congrArg Except.toOption hnext
    rw [show Except.toOption _ = some (some Discard.work) by decide +kernel] at hwork
    cases hwork
    cases happly
    refine ⟨fun w rem hworks => ?_, ?_⟩
    · obtain ⟨rfl, rfl⟩ := List.cons.inj hworks
      exact ⟨by decide +kernel, fun b hb => by cases hb⟩
    · cases fuel with
      | zero => trivial
      | succ fuel =>
        intro discard t' hnext
        have hend := congrArg Except.toOption hnext
        rw [show Except.toOption _ = some none by decide +kernel] at hend
        cases hend

/-- Discarding the last work adds its fee to the budget, though it is the
receiver's; then discarding the command leaves a budget of nothing that does
not pay for the second work. -/
theorem onePrediff_insufficient :
    ∃ t e, onePrediff Sample.constants 10 Sample.receiversWorks [Sample.command 3 6] ⟨4, false⟩ false 1 1 false false =
        .ok (some t) ∧ slotsOccupied t = 1 ∧
      getTransactionData Sample.constants t.coinbase ⟨4, false⟩ 20 t.commandsRev.reverse t.completedWorkRev.reverse =
        .ok (.error e) := by
  have h : (onePrediff Sample.constants 10 Sample.receiversWorks [Sample.command 3 6] ⟨4, false⟩ false 1 1 false
      false).toOption.any (fun r => r.any fun t => slotsOccupied t = 1 && (getTransactionData Sample.constants t.coinbase
        ⟨4, false⟩ 20 t.commandsRev.reverse t.completedWorkRev.reverse).toOption.any fun r => !r.isOk) = true := by
    decide +kernel
  obtain ⟨r, hr, h⟩ := exists_of_toOption_any h
  cases r with
  | none => cases h
  | some t =>
    obtain ⟨hslots, h⟩ := Bool.and_eq_true_iff.1 h
    obtain ⟨data, hdata, h⟩ := exists_of_toOption_any h
    cases data with
    | ok data => cases h
    | error e => exact ⟨t, e, hr, of_decide_eq_true hslots, hdata⟩

end Mina.StagedLedger.Resources
