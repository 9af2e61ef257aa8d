/-
Whether the resources account for every prover once (`Accounted`): what the
map holds for a prover and what the coinbase pays to it add up to the fees of
its works, and the budget is what the fees of the commands leave after the
map's fees for provers other than the receiver.

The operations do not keep this. Selecting works for the coinbase loses a work
with a fee that shares its statement with a work that is taken, or is taken
beside a free one, and is not paid. Discarding the fee transfer of a coinbase
overwrites what the map holds for its prover. And the budget is adjusted by
the fee of a work (when it is discarded) or not at all (when works are selected
otherwise), which is right only as long as the works that the coinbase pays
for, those of the receiver apart, do not change. For each operation the
condition under which it keeps the accounts (`Keeps`) is exact, so a run keeps
them throughout if and only if each of its steps meets its condition.
-/
import Mina.StagedLedger.ResourcesFacts

namespace Mina.StagedLedger.Resources

variable {F Status : Type}

/-- What the parts of a coinbase pay to provers. -/
def coinbaseEntries (coinbase : AtMostTwo CoinbaseFeeTransfer) : List (PublicKey × Fee) :=
  coinbase.toList.map fun ft => (ft.receiverPk, ft.fee)

structure Accounted (t : T F Status) : Prop where
  provers : ∀ p, FeeMap.amount t.feeTransfers p + FeeMap.owed (coinbaseEntries t.coinbase) p =
    FeeMap.owed (entries t.completedWorkRev) p
  budget : ∀ b, t.budget = .ok b →
    b.val + FeeMap.total (fun key => t.receiverPk ≠ key) t.feeTransfers = (t.commandsRev.map (feeOf commandFee)).sum

/-- What the map and the coinbase pay to a prover are the fees of its works. -/
def ProverAccounted (t : T F Status) (p : PublicKey) : Prop :=
  FeeMap.amount t.feeTransfers p + FeeMap.owed (coinbaseEntries t.coinbase) p =
    FeeMap.owed (entries t.completedWorkRev) p

def BudgetAccounted (t : T F Status) : Prop :=
  ∀ b, t.budget = .ok b →
    b.val + FeeMap.total (fun key => t.receiverPk ≠ key) t.feeTransfers = (t.commandsRev.map (feeOf commandFee)).sum

/-- The accounts of the provers other than the receiver, on which the budget
and the slots depend. -/
structure AccountedOthers (t : T F Status) : Prop where
  provers : ∀ p, t.receiverPk ≠ p → ProverAccounted t p
  budget : BudgetAccounted t

theorem Accounted.others {t : T F Status} (h : Accounted t) : AccountedOthers t :=
  ⟨fun p _ => h.provers p, h.budget⟩

/-- What works owe to provers other than the receiver. -/
def owedOthers (receiverPk : PublicKey) (works : List (TransactionSnarkWork F)) : Nat :=
  FeeMap.totalOwed (fun key => receiverPk ≠ key) (entries works)

/-- What the parts of a coinbase pay to provers other than the receiver. -/
def coinbaseOthers (t : T F Status) : Nat :=
  FeeMap.totalOwed (fun key => t.receiverPk ≠ key) (coinbaseEntries t.coinbase)

/-! ## Sums over works -/

theorem owedOthers_cons (receiverPk : PublicKey) (w : TransactionSnarkWork F) (works : List (TransactionSnarkWork F)) :
    owedOthers receiverPk (w :: works) = (if receiverPk ≠ w.prover then w.fee.val else 0) + owedOthers receiverPk works := by
  rw [owedOthers, entries, List.map_cons, FeeMap.totalOwed_cons]
  simp only [decide_eq_true_iff]
  rfl

theorem owed_entries_perm {works works' : List (TransactionSnarkWork F)} (h : works.Perm works') (p : PublicKey) :
    FeeMap.owed (entries works) p = FeeMap.owed (entries works') p :=
  FeeMap.owed_perm (h.map _) p

theorem owed_entries_append (works works' : List (TransactionSnarkWork F)) (p : PublicKey) :
    FeeMap.owed (entries (works ++ works')) p = FeeMap.owed (entries works) p + FeeMap.owed (entries works') p := by
  rw [entries, List.map_append, FeeMap.owed_append]
  rfl

theorem owed_singles (works : List (TransactionSnarkWork F)) (p : PublicKey) :
    FeeMap.owed (singles works) p = FeeMap.owed (entries works) p := by
  rw [FeeMap.owed_perm (singles_perm works), FeeMap.owed_filter_ne_zero]

/-- Works without a fee owe nothing. -/
theorem owed_entries_positive (works : List (TransactionSnarkWork F)) (p : PublicKey) :
    FeeMap.owed (entries (works.filter fun w => 0 < w.fee)) p = FeeMap.owed (entries works) p := by
  rw [← FeeMap.owed_filter_ne_zero (entries works), entries, entries, List.filter_map]
  congr 2
  refine List.filter_congr fun w _ => ?_
  simp [Fin.pos_iff_ne_zero]

theorem coinbaseEntries_eq {coinbase : AtMostTwo CoinbaseFeeTransfer} {ws : List (TransactionSnarkWork F)}
    (h : coinbase.toList = ws.map transfer) : coinbaseEntries coinbase = entries ws := by
  rw [coinbaseEntries, h, List.map_map]
  rfl

/-- Works that owe nothing, key by key, and have fees are none. -/
theorem eq_nil_of_owed {works : List (TransactionSnarkWork F)} (hpos : ∀ w ∈ works, 0 < w.fee)
    (h : ∀ p, FeeMap.owed (entries works) p = 0) : works = [] := by
  cases works with
  | nil => rfl
  | cons w works =>
    have hw := h w.prover
    rw [entries, List.map_cons, FeeMap.owed_cons, if_pos rfl] at hw
    have := Fin.lt_def.1 (hpos w (by simp))
    rw [Fin.val_zero] at this
    dsimp only at hw
    omega

section Select

variable [DecidableEq F] {c : ConstraintConstants}

/-- The works by whether their statement is taken. -/
theorem owed_entries_split (works : List (TransactionSnarkWork F)) (stmts : List (OneOrTwo (Statement F)))
    (p : PublicKey) : FeeMap.owed (entries works) p =
      FeeMap.owed (entries (works.filter fun w => 0 < w.fee ∧ w.statement ∈ stmts)) p +
        FeeMap.owed (entries (diff works stmts)) p := by
  have hsplit := List.filter_append_perm (fun w => decide (w.statement ∈ stmts)) works
  have htaken : (works.filter fun w => 0 < w.fee ∧ w.statement ∈ stmts) =
      (works.filter fun w => w.statement ∈ stmts).filter fun w => 0 < w.fee := by
    rw [List.filter_filter]
    exact List.filter_congr fun w _ => Bool.decide_and _ _
  rw [← owed_entries_perm hsplit, owed_entries_append, htaken, owed_entries_positive, diff]
  simp only [decide_not]

/-- The paid works of a selection are works with a statement that is taken. -/
theorem coinbaseTaken_subperm (isTwo : Bool) (works : List (TransactionSnarkWork F))
    (isCoinbaseReceiverNew superchargeCoinbase : Bool) :
    (paid (coinbaseTaken c isTwo works isCoinbaseReceiverNew superchargeCoinbase)).Subperm
      (works.filter fun w => 0 < w.fee ∧ w.statement ∈
        (coinbaseTaken c isTwo works isCoinbaseReceiverNew superchargeCoinbase).map (·.statement)) := by
  rcases @coinbaseTaken_cases F _ c isTwo works isCoinbaseReceiverNew superchargeCoinbase with h | h
  · rw [h]
    exact List.nil_subperm
  · obtain ⟨amount, budget, h⟩ := h
    rw [h]
    exact paid_subperm _ _ _ _

/-- A selection that removes the statements `ts` and pays `paid ts` accounts
for every prover exactly when it loses no work. -/
theorem accounts_iff_noneLost {works ts : List (TransactionSnarkWork F)}
    (hsub : (paid ts).Subperm (works.filter fun w => 0 < w.fee ∧ w.statement ∈ ts.map (·.statement))) :
    (∀ p, FeeMap.owed (entries (diff works (ts.map (·.statement)))) p + FeeMap.owed (entries (paid ts)) p =
      FeeMap.owed (entries works) p) ↔ NoneLost works ts := by
  obtain ⟨paid', hperm, hsublist⟩ := hsub
  constructor
  · intro h
    obtain ⟨lost, hlost⟩ := hsublist.exists_perm_append
    have howed : ∀ p, FeeMap.owed (entries lost) p = 0 := by
      intro p
      have := h p
      rw [owed_entries_split works (ts.map (·.statement)), owed_entries_perm hlost, owed_entries_append,
        owed_entries_perm hperm] at this
      omega
    have hpos : ∀ w ∈ lost, 0 < w.fee := by
      intro w hw
      have := (List.mem_filter.1 (hlost.mem_iff.2 (List.mem_append_right _ hw))).2
      exact (of_decide_eq_true this).1
    rw [NoneLost, hlost.length_eq, eq_nil_of_owed hpos howed, List.append_nil, hperm.length_eq]
  · intro h p
    have hall := hsublist.eq_of_length (hperm.length_eq.trans h.symm)
    rw [owed_entries_split works (ts.map (·.statement)), ← hall, owed_entries_perm hperm, Nat.add_comm]

/-! ## The accounts after a selection -/

omit [DecidableEq F] in
/-- The budget in terms of the works and the coinbase only. -/
theorem budget_iff {t : T F Status} (h : ∀ p, t.receiverPk ≠ p → ProverAccounted t p) (b : Fee) :
    b.val + FeeMap.total (fun key => t.receiverPk ≠ key) t.feeTransfers = (t.commandsRev.map (feeOf commandFee)).sum ↔
      b.val + owedOthers t.receiverPk t.completedWorkRev =
        (t.commandsRev.map (feeOf commandFee)).sum + coinbaseOthers t := by
  have htotal := FeeMap.total_add_totalOwed (fun key => t.receiverPk ≠ key)
    fun key hkey => h key (of_decide_eq_true hkey)
  rw [owedOthers, coinbaseOthers]
  omega

omit [DecidableEq F] in
/-- The accounts in terms of the works and the coinbase only. -/
theorem accounted_iff {t : T F Status} : Accounted t ↔
    (∀ p, FeeMap.amount t.feeTransfers p + FeeMap.owed (coinbaseEntries t.coinbase) p =
      FeeMap.owed (entries t.completedWorkRev) p) ∧
    ∀ b, t.budget = .ok b → b.val + owedOthers t.receiverPk t.completedWorkRev =
      (t.commandsRev.map (feeOf commandFee)).sum + coinbaseOthers t :=
  ⟨fun h => ⟨h.provers, fun b hb => (budget_iff (fun p _ => h.provers p) b).1 (h.budget b hb)⟩,
    fun h => ⟨h.1, fun b hb => (budget_iff (fun p _ => h.1 p) b).2 (h.2 b hb)⟩⟩

/-- The selection of works from a list accounts for every prover exactly when
it loses none. -/
theorem selected_provers_iff {works ts : List (TransactionSnarkWork F)} {coinbase : AtMostTwo CoinbaseFeeTransfer}
    {feeTransfers : FeeMap PublicKey} (hcoinbase : coinbase.toList = (paid ts).map transfer)
    (hmap : FeeMap.ofAlistReduce (singles (diff works (ts.map (·.statement)))) = .ok feeTransfers)
    (hsub : (paid ts).Subperm (works.filter fun w => 0 < w.fee ∧ w.statement ∈ ts.map (·.statement))) :
    (∀ p, FeeMap.amount feeTransfers p + FeeMap.owed (coinbaseEntries coinbase) p =
      FeeMap.owed (entries works) p) ↔ NoneLost works ts := by
  rw [← accounts_iff_noneLost hsub, coinbaseEntries_eq hcoinbase]
  refine forall_congr' fun p => ?_
  rw [(FeeMap.ofAlistReduce_eq_ok hmap p).1, owed_singles]

theorem reselectTaken_subperm (t : T F Status) : (paid (reselectTaken c t)).Subperm
    (t.completedWorkRev.filter fun w => 0 < w.fee ∧ w.statement ∈ (reselectTaken c t).map (·.statement)) := by
  rw [reselectTaken.eq_def]
  cases t.coinbase with
  | zero => exact List.nil_subperm
  | one x => exact coinbaseTaken_subperm _ _ _ _
  | two x => exact coinbaseTaken_subperm _ _ _ _

/-- What a selection pays to provers other than the receiver. -/
def selectedOthers (c : ConstraintConstants) (t : T F Status) : Nat :=
  owedOthers t.receiverPk (paid (reselectTaken c t))

/-- The accounts after works have been selected again, with any budget. -/
theorem Reselected.accounted_iff {t newT : T F Status} (h : Reselected c t newT) (budget : Except String Fee) :
    Accounted { newT with budget } ↔ NoneLost t.completedWorkRev (reselectTaken c t) ∧
      ∀ b, budget = .ok b → b.val + owedOthers t.receiverPk t.completedWorkRev =
        (t.commandsRev.map (feeOf commandFee)).sum + selectedOthers c t := by
  have hprovers := selected_provers_iff h.coinbase h.feeTransfers (reselectTaken_subperm t)
  have hothers : coinbaseOthers { newT with budget } = selectedOthers c t := by
    rw [coinbaseOthers, coinbaseEntries_eq h.coinbase, selectedOthers, owedOthers, h.eq]
  rw [Resources.accounted_iff, hothers, ← hprovers, h.eq]

/-- A budget computed from a selection that loses no work of another prover is
right. -/
theorem Reselected.rebudget {t newT : T F Status} (h : Reselected c t newT)
    (hprovers : ∀ p, t.receiverPk ≠ p → FeeMap.amount newT.feeTransfers p +
      FeeMap.owed (coinbaseEntries newT.coinbase) p = FeeMap.owed (entries t.completedWorkRev) p)
    {b : Fee} (hb : rebudget newT = .ok (.ok b)) :
    b.val + owedOthers t.receiverPk t.completedWorkRev =
      (t.commandsRev.map (feeOf commandFee)).sum + selectedOthers c t := by
  have htotal := FeeMap.total_add_totalOwed (fun key => t.receiverPk ≠ key)
    fun p hp => hprovers p (of_decide_eq_true hp)
  have hsum := rebudget_eq_ok hb
  have hreceiver : newT.receiverPk = t.receiverPk := by rw [h.eq]
  have hcommands : newT.commandsRev = t.commandsRev := by rw [h.eq]
  rw [hreceiver, hcommands] at hsum
  rw [coinbaseEntries_eq h.coinbase] at htotal
  rw [owedOthers, selectedOthers, owedOthers]
  omega

/-! ## Operations -/

/-- `incr_coinbase_part_by` is one or two of the last. -/
inductive Operation where
  | discardLastWork
  | discardUserCommand
  | reselectCoinbaseWork
  | incrCoinbaseByOne

def Operation.apply (c : ConstraintConstants) (t : T F Status) : Operation → Exn (T F Status)
  | .discardLastWork => (Resources.discardLastWork c t).andThen fun r => .ok r.1
  | .discardUserCommand => (Resources.discardUserCommand t).andThen fun r => .ok r.1
  | .reselectCoinbaseWork => Resources.reselectCoinbaseWork c t
  | .incrCoinbaseByOne => Resources.incrCoinbaseByOne c t

/-- The condition under which an operation keeps the accounts. Selecting works
loses none; and with a budget that is adjusted, what the coinbase pays to
provers other than the receiver changes only by the fee of a work that comes
back, or of the receiver's that goes. A fee transfer that is moved to the map
finds nothing there. -/
def Operation.Keeps (c : ConstraintConstants) (t : T F Status) : Operation → Prop
  | .discardLastWork => ∀ w rem, t.completedWorkRev = w :: rem →
    NoneLost rem (reselectTaken c { t with completedWorkRev := rem }) ∧
      ∀ b, t.budget = .ok b → b.val + w.fee.val < 2 ^ 64 →
        selectedOthers c { t with completedWorkRev := rem } =
          coinbaseOthers t + if t.receiverPk = w.prover then w.fee.val else 0
  | .discardUserCommand => t.commandsRev = [] →
    ∀ ft, movedFeeTransfer t.coinbase = some ft → FeeMap.amount t.feeTransfers ft.receiverPk = 0
  | .reselectCoinbaseWork => NoneLost t.completedWorkRev (reselectTaken c t) ∧
    ∀ b, t.budget = .ok b → selectedOthers c t = coinbaseOthers t
  | .incrCoinbaseByOne => ∀ w remWork coinbase, t.discarded.completedWork = w :: remWork →
    incrCoinbase t.coinbase = .ok coinbase →
      NoneLost (w :: t.completedWorkRev)
          (reselectTaken c { t with completedWorkRev := w :: t.completedWorkRev, coinbase }) ∧
        ∀ b, t.budget = .ok b →
          selectedOthers c { t with completedWorkRev := w :: t.completedWorkRev, coinbase } =
            coinbaseOthers t + if t.receiverPk ≠ w.prover then w.fee.val else 0

theorem discardLastWork_nothing {t t' : T F Status} (hworks : t.completedWorkRev = [])
    (h : Operation.apply c t .discardLastWork = .ok t') : t' = t := by
  obtain ⟨r, hr, h⟩ := Exn.andThen_eq_ok.1 h
  rw [discardLastWork_nil hworks] at hr
  cases hr
  cases h
  rfl

/-- The budget after a work has been discarded, when the selection loses no
work of another prover. -/
theorem discardLastWork_budget_iff {t newT : T F Status} {w : TransactionSnarkWork F}
    {rem : List (TransactionSnarkWork F)} {budget : Except String Fee} (hworks : t.completedWorkRev = w :: rem)
    (ht : AccountedOthers t)
    (hre : Reselected c { t with completedWorkRev := rem, discarded := t.discarded.addCompletedWork w } newT)
    (hprovers : ∀ p, t.receiverPk ≠ p → FeeMap.amount newT.feeTransfers p +
      FeeMap.owed (coinbaseEntries newT.coinbase) p = FeeMap.owed (entries rem) p)
    (hok : ∀ b, t.budget = .ok b → budget = option "Currency overflow" (Currency.add b w.fee))
    (herror : t.budget.isOk = false → Resources.rebudget newT = .ok budget) :
    (∀ b, budget = .ok b → b.val + owedOthers t.receiverPk rem =
      (t.commandsRev.map (feeOf commandFee)).sum + selectedOthers c { t with completedWorkRev := rem }) ↔
    ∀ b, t.budget = .ok b → b.val + w.fee.val < 2 ^ 64 →
      selectedOthers c { t with completedWorkRev := rem } =
        coinbaseOthers t + if t.receiverPk = w.prover then w.fee.val else 0 := by
  rcases budget_cases t with hcompute | hadjust
  · have hcomputed := herror hcompute
    refine ⟨fun _ b hb => ?_, fun _ b hb => ?_⟩
    · rw [hb] at hcompute
      cases hcompute
    · exact hre.rebudget hprovers (hb ▸ hcomputed)
  · obtain ⟨b, hb⟩ := hadjust
    have hbefore := (budget_iff ht.provers b).1 (ht.budget b hb)
    rw [hworks, owedOthers_cons] at hbefore
    have hsplit : (if t.receiverPk ≠ w.prover then w.fee.val else 0) +
        (if t.receiverPk = w.prover then w.fee.val else 0) = w.fee.val := by
      by_cases hw : t.receiverPk = w.prover <;> simp [hw]
    rw [hok b hb]
    cases hadd : Currency.add b w.fee with
    | none =>
      have := Currency.add_eq_none.1 hadd
      refine ⟨fun _ b' hb' hlt => ?_, fun _ b' hb' => (by cases hb')⟩
      obtain rfl := Except.ok.inj (hb.symm.trans hb')
      omega
    | some sum =>
      have hsum := Currency.add_eq_some.1 hadd
      have hlt := sum.isLt
      refine ⟨fun h b' hb' _ => ?_, fun h b' hb' => ?_⟩
      · have := h sum rfl
        obtain rfl := Except.ok.inj (hb.symm.trans hb')
        omega
      · cases hb'
        have := h b hb (by omega)
        omega

/-- Discarding a work makes the accounts of all provers right, whatever the
receiver's were. -/
theorem discardLastWork_accounted_iff {t t' : T F Status} {w : TransactionSnarkWork F}
    {rem : List (TransactionSnarkWork F)} (hworks : t.completedWorkRev = w :: rem) (ht : AccountedOthers t)
    (h : Operation.apply c t .discardLastWork = .ok t') :
    Accounted t' ↔ Operation.Keeps c t .discardLastWork := by
  obtain ⟨r, hr, h⟩ := Exn.andThen_eq_ok.1 h
  cases h
  obtain ⟨newT, budget, hre, rfl, hok, herror⟩ := discardLastWork_cons hworks hr
  have hkeeps : Operation.Keeps c t .discardLastWork ↔
      NoneLost rem (reselectTaken c { t with completedWorkRev := rem }) ∧
        ∀ b, t.budget = .ok b → b.val + w.fee.val < 2 ^ 64 →
          selectedOthers c { t with completedWorkRev := rem } =
            coinbaseOthers t + if t.receiverPk = w.prover then w.fee.val else 0 := by
    refine ⟨fun h => h w rem hworks, fun h w' rem' hcons => ?_⟩
    rw [hworks] at hcons
    obtain ⟨rfl, rfl⟩ := List.cons.inj hcons
    exact h
  rw [hkeeps]
  refine (hre.accounted_iff budget).trans (and_congr_right fun hlost => ?_)
  have hprovers := (selected_provers_iff hre.coinbase hre.feeTransfers (reselectTaken_subperm _)).2 hlost
  exact discardLastWork_budget_iff (t := t) hworks ht hre (fun p _ => hprovers p) hok herror

/-- Discarding a command, or a part of the coinbase when there is none, keeps
the accounts of a prover unless its fee transfer is moved onto another one, and
keeps the budget right. -/
theorem discardUserCommand_keeps {t t' : T F Status} (h : Operation.apply c t .discardUserCommand = .ok t') :
    t'.receiverPk = t.receiverPk ∧
      (∀ p, ProverAccounted t p → (ProverAccounted t' p ↔ (t.commandsRev = [] →
        ∀ ft, movedFeeTransfer t.coinbase = some ft → ft.receiverPk = p → FeeMap.amount t.feeTransfers p = 0))) ∧
      (BudgetAccounted t → BudgetAccounted t') := by
  obtain ⟨r, hr, h⟩ := Exn.andThen_eq_ok.1 h
  cases h
  cases hcommands : t.commandsRev with
  | nil =>
    rw [discardUserCommand_nil hcommands] at hr
    obtain ⟨t', ht', hr⟩ := Exn.andThen_eq_ok.1 hr
    cases hr
    rcases decrCoinbase_eq_ok ht' with hfree | hpaid
    · obtain ⟨coinbase, hmoved, rfl, hlist, -⟩ := hfree
      have hentries : coinbaseEntries coinbase = coinbaseEntries t.coinbase := by
        rw [coinbaseEntries, hlist, coinbaseEntries]
      refine ⟨rfl, fun p hp => ⟨fun _ _ ft hft => ?_, fun _ => ?_⟩, id⟩
      · rw [hmoved] at hft
        cases hft
      · rw [ProverAccounted, hentries]
        exact hp
    · obtain ⟨ft, coinbase, budget, hmoved, rfl, hlist, -, hbudget⟩ := hpaid
      have hentries : coinbaseEntries t.coinbase = coinbaseEntries coinbase ++ [(ft.receiverPk, ft.fee)] := by
        rw [coinbaseEntries, hlist, List.map_append]
        rfl
      refine ⟨rfl, fun p hp => ?_, fun _ b hb => ?_⟩
      · rw [ProverAccounted, hentries, FeeMap.owed_append, FeeMap.owed_cons, FeeMap.owed_nil] at hp
        rw [ProverAccounted]
        dsimp only at hp ⊢
        rw [FeeMap.amount_insert]
        split_ifs at hp ⊢ with hmine
        · refine ⟨fun hafter _ ft' _ _ => by omega, fun hempty => ?_⟩
          have := hempty rfl ft hmoved hmine
          omega
        · refine ⟨fun _ _ ft' hft' hmine' => ?_, fun _ => by omega⟩
          rw [hmoved] at hft'
          cases hft'
          exact absurd hmine' hmine
      · have hcomputed : budget = .ok b := hb
        exact rebudget_eq_ok (hcomputed ▸ hbudget)
  | cons uc rem =>
    obtain ⟨budget, rfl, hok, herror⟩ := discardUserCommand_cons hcommands hr
    refine ⟨rfl, fun p hp => ⟨fun _ hnil => (by cases hnil), fun _ => hp⟩, fun hsum b hb => ?_⟩
    have hb : budget = .ok b := hb
    rcases budget_cases t with hcompute | hadjust
    · exact rebudget_eq_ok (hb ▸ herror hcompute)
    · obtain ⟨b', hbefore⟩ := hadjust
      obtain ⟨fee, hfee, hsub⟩ := hok b' hbefore
      have hsum := hsum b' hbefore
      rw [hcommands, List.map_cons, List.sum_cons, feeOf_of_ok hfee] at hsum
      obtain ⟨hle, hval⟩ := Currency.sub_eq_some.1 (option_eq_ok (hsub.symm.trans hb))
      dsimp only
      omega

theorem discardUserCommand_accounted_iff {t t' : T F Status} (ht : Accounted t)
    (h : Operation.apply c t .discardUserCommand = .ok t') :
    Accounted t' ↔ Operation.Keeps c t .discardUserCommand := by
  obtain ⟨-, hprovers, hbudget⟩ := discardUserCommand_keeps h
  refine ⟨fun h' hnil ft hmoved => ?_, fun hkeeps => ⟨fun p => ?_, hbudget ht.budget⟩⟩
  · exact (hprovers ft.receiverPk (ht.provers _)).1 (h'.provers _) hnil ft hmoved rfl
  · refine (hprovers p (ht.provers p)).2 fun hnil ft hmoved hp => ?_
    exact hp ▸ hkeeps hnil ft hmoved

theorem reselectCoinbaseWork_accounted_iff {t t' : T F Status} (ht : Accounted t)
    (h : Operation.apply c t .reselectCoinbaseWork = .ok t') :
    Accounted t' ↔ Operation.Keeps c t .reselectCoinbaseWork := by
  have hre := reselectCoinbaseWork_eq_ok h
  have hbudget : t'.budget = t.budget := by rw [hre.eq]
  refine (hre.accounted_iff t'.budget).trans (and_congr_right fun _ => forall_congr' fun b => ?_)
  rw [hbudget]
  refine imp_congr_right fun hb => ?_
  have := (accounted_iff.1 ht).2 b hb
  omega

theorem incrCoinbase_toList {coinbase coinbase' : AtMostTwo CoinbaseFeeTransfer}
    (h : incrCoinbase coinbase = .ok coinbase') : coinbase'.toList = coinbase.toList := by
  rw [incrCoinbase.eq_def] at h
  split at h <;> cases h <;> rfl

theorem incrCoinbaseByOne_accounted_iff {t t' : T F Status} (ht : Accounted t)
    (h : Operation.apply c t .incrCoinbaseByOne = .ok t') :
    Accounted t' ↔ Operation.Keeps c t .incrCoinbaseByOne := by
  have h : Resources.incrCoinbaseByOne c t = .ok t' := h
  rw [Resources.incrCoinbaseByOne] at h
  split at h
  next hincr =>
    cases h
    refine ⟨fun _ w remWork coinbase _ hok => ?_, fun _ => ht⟩
    rw [hincr] at hok
    cases hok
  next w remWork coinbase hdiscarded hincr =>
    have hre := reselectCoinbaseWork_eq_ok h
    have hbudget : t'.budget = t.budget := by rw [hre.eq]
    have hkeeps : Operation.Keeps c t .incrCoinbaseByOne ↔
        NoneLost (w :: t.completedWorkRev)
            (reselectTaken c { t with completedWorkRev := w :: t.completedWorkRev, coinbase }) ∧
          ∀ b, t.budget = .ok b →
            selectedOthers c { t with completedWorkRev := w :: t.completedWorkRev, coinbase } =
              coinbaseOthers t + if t.receiverPk ≠ w.prover then w.fee.val else 0 := by
      refine ⟨fun h => h w remWork coinbase hdiscarded hincr, fun h w' remWork' coinbase' hcons hok => ?_⟩
      rw [hdiscarded] at hcons
      obtain ⟨rfl, rfl⟩ := List.cons.inj hcons
      obtain rfl := Except.ok.inj (hincr.symm.trans hok)
      exact h
    rw [hkeeps]
    refine (hre.accounted_iff t'.budget).trans (and_congr_right fun _ => forall_congr' fun b => ?_)
    rw [hbudget]
    refine imp_congr_right fun hb => ?_
    have hbefore := (accounted_iff.1 ht).2 b hb
    have hafter : selectedOthers c { t with completedWorkRev := w :: t.completedWorkRev, coinbase } =
        selectedOthers c { t with
          completedWorkRev := w :: t.completedWorkRev
          discarded := { t.discarded with completedWork := remWork }
          coinbase } := rfl
    rw [hafter, owedOthers_cons]
    dsimp only
    omega
  next coinbase hdiscarded hincr =>
    have hentries : coinbaseEntries coinbase = coinbaseEntries t.coinbase := by
      rw [coinbaseEntries, incrCoinbase_toList hincr, coinbaseEntries]
    have hkept : Accounted { t with coinbase } := by
      refine ⟨fun p => ?_, ht.budget⟩
      rw [hentries]
      exact ht.provers p
    refine ⟨fun _ w remWork coinbase hcons => ?_, fun _ => ?_⟩
    · rw [hdiscarded] at hcons
      cases hcons
    · split at h
      next =>
        cases h
        exact hkept
      next =>
        cases h
        exact ht

/-- One operation keeps the accounts exactly when its condition is met. -/
theorem apply_accounted_iff {t t' : T F Status} {op : Operation} (ht : Accounted t) (h : op.apply c t = .ok t') :
    Accounted t' ↔ op.Keeps c t := by
  cases op with
  | discardLastWork =>
    cases hworks : t.completedWorkRev with
    | nil =>
      rw [discardLastWork_nothing hworks h]
      refine ⟨fun _ w rem hcons => ?_, fun _ => ht⟩
      rw [hworks] at hcons
      cases hcons
    | cons w rem => exact discardLastWork_accounted_iff hworks ht.others h
  | discardUserCommand => exact discardUserCommand_accounted_iff ht h
  | reselectCoinbaseWork => exact reselectCoinbaseWork_accounted_iff ht h
  | incrCoinbaseByOne => exact incrCoinbaseByOne_accounted_iff ht h

/-! ## Runs -/

def run (c : ConstraintConstants) (t : T F Status) : List Operation → Exn (T F Status)
  | [] => .ok t
  | op :: ops => (op.apply c t).andThen fun t => run c t ops

/-- Every step of a run meets its condition. -/
def KeepsAll (c : ConstraintConstants) (t : T F Status) : List Operation → Prop
  | [] => True
  | op :: ops => ∀ t', op.apply c t = .ok t' → op.Keeps c t ∧ KeepsAll c t' ops

/-- `incr_coinbase_part_by` is a run. -/
theorem incrCoinbasePartBy_eq_run (t : T F Status) :
    incrCoinbasePartBy c t .one = run c t [.incrCoinbaseByOne] ∧
      incrCoinbasePartBy c t .two = run c t [.incrCoinbaseByOne, .incrCoinbaseByOne] := by
  have one : ∀ t : T F Status, run c t [.incrCoinbaseByOne] = incrCoinbaseByOne c t := by
    intro t
    rw [run, Operation.apply]
    cases incrCoinbaseByOne c t <;> rfl
  refine ⟨(one t).symm, ?_⟩
  rw [run, incrCoinbasePartBy, Operation.apply]
  exact congrArg _ (funext fun t => (one t).symm)

/-- The states of a run from accounts that are right all have right accounts
exactly when every step meets its condition. -/
theorem run_accounted_iff (ops : List Operation) : ∀ t : T F Status,
    (∀ pre, pre <+: ops → ∀ t', run c t pre = .ok t' → Accounted t') ↔ Accounted t ∧ KeepsAll c t ops := by
  induction ops with
  | nil =>
    intro t
    refine ⟨fun h => ⟨h [] (List.prefix_refl _) t rfl, trivial⟩, fun h pre hpre t' ht' => ?_⟩
    rw [List.prefix_nil.1 hpre] at ht'
    cases ht'
    exact h.1
  | cons op ops ih =>
    intro t
    constructor
    · intro h
      have ht : Accounted t := h [] List.nil_prefix t rfl
      refine ⟨ht, fun t' hop => ?_⟩
      have hrest := (ih t').1 fun pre hpre t'' ht'' => by
        refine h (op :: pre) (List.cons_prefix_cons.2 ⟨rfl, hpre⟩) t'' ?_
        rw [run, hop, Exn.andThen_ok, ht'']
      exact ⟨(apply_accounted_iff ht hop).1 hrest.1, hrest.2⟩
    · intro h pre hpre t'' ht''
      obtain ⟨ht, hsteps⟩ := h
      rcases List.prefix_cons_iff.1 hpre with hnil | hcons
      · rw [hnil] at ht''
        cases ht''
        exact ht
      · obtain ⟨pre', hpre', hrest⟩ := hcons
        rw [hpre'] at ht''
        obtain ⟨t', hop, ht''⟩ := Exn.andThen_eq_ok.1 ht''
        obtain ⟨hkeeps, hall⟩ := hsteps t' hop
        exact (ih t').2 ⟨(apply_accounted_iff ht hop).2 hkeeps, hall⟩ pre' hrest t'' ht''

theorem initTaken_subperm (cwSeq : List (TransactionSnarkWork F))
    (addCoinbase isCoinbaseReceiverNew superchargeCoinbase : Bool) :
    (paid (initTaken c cwSeq addCoinbase isCoinbaseReceiverNew superchargeCoinbase)).Subperm
      (cwSeq.filter fun w => 0 < w.fee ∧ w.statement ∈
        (initTaken c cwSeq addCoinbase isCoinbaseReceiverNew superchargeCoinbase).map (·.statement)) := by
  rw [initTaken]
  split
  next => exact coinbaseTaken_subperm _ _ _ _
  next => exact List.nil_subperm

section Init

variable {ucSeq : List (Command Status)} {cwSeq : List (TransactionSnarkWork F)} {slots jobCount : Int}
  {receiverPk : PublicKey} {addCoinbase superchargeCoinbase isCoinbaseReceiverNew : Bool} {t : T F Status}

/-- What the initial resources have of what they are made from. -/
theorem init_eq_ok
    (h : init c ucSeq cwSeq slots jobCount receiverPk addCoinbase superchargeCoinbase isCoinbaseReceiverNew = .ok t) :
    t.maxSpace = slots ∧ t.maxJobs = jobCount ∧ t.receiverPk = receiverPk ∧
      t.superchargeCoinbase = superchargeCoinbase ∧ t.completedWorkRev = cwSeq.reverse ∧
      t.coinbase.toList =
        (paid (initTaken c cwSeq addCoinbase isCoinbaseReceiverNew superchargeCoinbase)).map transfer ∧
      FeeMap.ofAlistReduce (singles (diff cwSeq ((initTaken c cwSeq addCoinbase isCoinbaseReceiverNew
        superchargeCoinbase).map (·.statement)))) = .ok t.feeTransfers := by
  obtain ⟨r, hr, h⟩ := Exn.andThen_eq_ok.1 h
  obtain ⟨feeTransfers, hmap, h⟩ := Exn.andThen_eq_ok.1 h
  obtain ⟨revenue, -, h⟩ := Exn.andThen_eq_ok.1 h
  obtain ⟨cost, -, h⟩ := Exn.andThen_eq_ok.1 h
  obtain ⟨-, hlist, hsingles⟩ := initCoinbaseAndFeeTransfers_eq_ok hr
  cases h
  exact ⟨rfl, rfl, rfl, rfl, rfl, hlist, hsingles ▸ hmap⟩

/-- The initial budget is what the fees leave after the map, whatever the map
has. -/
theorem init_budgetAccounted
    (h : init c ucSeq cwSeq slots jobCount receiverPk addCoinbase superchargeCoinbase isCoinbaseReceiverNew = .ok t) :
    BudgetAccounted t := by
  obtain ⟨r, hr, h⟩ := Exn.andThen_eq_ok.1 h
  obtain ⟨feeTransfers, hmap, h⟩ := Exn.andThen_eq_ok.1 h
  obtain ⟨revenue, hrevenue, h⟩ := Exn.andThen_eq_ok.1 h
  obtain ⟨cost, hcost, h⟩ := Exn.andThen_eq_ok.1 h
  cases h
  intro b hb
  obtain ⟨fees, others, hfees, hothers, hsum⟩ := feeDifference_eq_ok hb
  rw [hfees] at hrevenue
  rw [hothers] at hcost
  have htotal : FeeMap.total (fun key => receiverPk ≠ key) feeTransfers = others.val := by
    rw [FeeMap.total_eq_totalOwed _ fun key => (FeeMap.ofAlistReduce_eq_ok hmap key).1, sumFees_eq_ok hcost,
      FeeMap.totalOwed]
    refine congrArg List.sum (congrArg _ (List.filter_congr fun e _ => ?_))
    rw [decide_eq_decide]
    exact ne_comm
  dsimp only
  rw [htotal, hsum, sumFees_eq_ok hrevenue]

/-- The initial accounts are right exactly when the initial selection loses no
work. -/
theorem init_accounted_iff
    (h : init c ucSeq cwSeq slots jobCount receiverPk addCoinbase superchargeCoinbase isCoinbaseReceiverNew = .ok t) :
    Accounted t ↔ NoneLost cwSeq (initTaken c cwSeq addCoinbase isCoinbaseReceiverNew superchargeCoinbase) := by
  obtain ⟨-, -, -, -, hworks, hlist, hmap⟩ := init_eq_ok h
  have hreverse : ∀ p, FeeMap.owed (entries t.completedWorkRev) p = FeeMap.owed (entries cwSeq) p := by
    rw [hworks]
    exact owed_entries_perm (List.reverse_perm cwSeq)
  rw [← selected_provers_iff hlist hmap (initTaken_subperm _ _ _ _)]
  exact ⟨fun h' p => (h'.provers p).trans (hreverse p),
    fun h' => ⟨fun p => (h' p).trans (hreverse p).symm, init_budgetAccounted h⟩⟩

end Init

/-- **When the resources account for every prover.** In a run of operations
from the initial resources, every state accounts for every prover once and its
budget is right, if and only if the initial selection loses no work and every
step meets its condition. -/
theorem accounted_throughout_iff {ucSeq : List (Command Status)} {cwSeq : List (TransactionSnarkWork F)}
    {slots jobCount : Int} {receiverPk : PublicKey} {addCoinbase superchargeCoinbase isCoinbaseReceiverNew : Bool}
    {t : T F Status}
    (h : init c ucSeq cwSeq slots jobCount receiverPk addCoinbase superchargeCoinbase isCoinbaseReceiverNew = .ok t)
    (ops : List Operation) :
    (∀ pre, pre <+: ops → ∀ t', run c t pre = .ok t' → Accounted t') ↔
      NoneLost cwSeq (initTaken c cwSeq addCoinbase isCoinbaseReceiverNew superchargeCoinbase) ∧
        KeepsAll c t ops := by
  rw [run_accounted_iff, init_accounted_iff h]

end Select

namespace Sample

/-- Two works of one prover, of which a coinbase pays for the first. -/
def sameProver : List (TransactionSnarkWork Nat) := [work 1 1 1, work 2 1 2]

/-- The last work is the receiver's, with the key 4. -/
def receiversLast : List (TransactionSnarkWork Nat) := [work 1 2 6, work 2 4 5]

end Sample

theorem accounted_throughout_iff_sample :
    ∃ t, init Sample.constants [Sample.command 3 20] Sample.works 2 2 ⟨4, false⟩ true false false = .ok t ∧
      ∀ pre, pre <+: [.discardLastWork] → ∀ t', run Sample.constants t pre = .ok t' → Accounted t' := by
  have hlost : NoneLost Sample.works (initTaken Sample.constants Sample.works true false false) := by decide
  refine ⟨_, rfl, (@accounted_throughout_iff Nat Unit _ Sample.constants [Sample.command 3 20] Sample.works 2 2
    ⟨4, false⟩ true false false _ rfl _).2 ⟨hlost, fun t' _ => ⟨fun w rem hworks => ?_, trivial⟩⟩⟩
  obtain ⟨rfl, rfl⟩ := List.cons.inj hworks
  exact ⟨by decide +kernel, fun b _ _ => by decide +kernel⟩

/-- Discarding the fee transfer of a coinbase overwrites the fee transfer of
its prover; and discarding a work of the receiver adds its fee to a budget from
which it was never taken. -/
theorem accounts_overwritten :
    (∃ t t', init Sample.constants ([] : List (Command Unit)) Sample.sameProver 2 2 ⟨4, false⟩ true false false =
        .ok t ∧ run Sample.constants t [.discardUserCommand] = .ok t' ∧ Accounted t ∧ ¬ Accounted t') ∧
      ∃ t t', init Sample.constants [Sample.command 3 10] Sample.receiversLast 2 2 ⟨4, false⟩ false false false =
        .ok t ∧ run Sample.constants t [.discardLastWork] = .ok t' ∧ Accounted t ∧ ¬ Accounted t' := by
  have hpaid : NoneLost Sample.sameProver (initTaken Sample.constants Sample.sameProver true false false) := by decide
  have hnone : NoneLost Sample.receiversLast (initTaken Sample.constants Sample.receiversLast false false false) := by
    decide
  refine ⟨⟨_, _, rfl, rfl,
      (@init_accounted_iff Nat Unit _ Sample.constants [] Sample.sameProver 2 2 ⟨4, false⟩ true false false _ rfl).2
        hpaid, fun h => ?_⟩,
    ⟨_, _, rfl, rfl,
      (@init_accounted_iff Nat Unit _ Sample.constants [Sample.command 3 10] Sample.receiversLast 2 2 ⟨4, false⟩
        false false false _ rfl).2 hnone, fun h => ?_⟩⟩
  · exact absurd (h.provers ⟨1, false⟩) (by decide +kernel)
  · exact absurd (h.budget 9 (by decide +kernel)) (by decide +kernel)

end Mina.StagedLedger.Resources
