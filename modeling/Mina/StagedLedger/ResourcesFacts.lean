/-
What the operations on the resources of a pre-diff compute.

A selection of works for the coinbase is described by the works whose
statements are taken from the list (`reselectTaken`): the parts pay for the
`paid` ones of them, and the map gets the fees of the works without their
statements. Selecting never changes how many parts there are, and whatever the
map or a part pays for is a work in the list.
-/
import Mina.StagedLedger.Resources

namespace Mina.StagedLedger

namespace AtMostTwo

variable {α : Type}

/-- How many parts there are. -/
def parts : AtMostTwo α → Nat
  | .zero => 0
  | .one _ => 1
  | .two _ => 2

end AtMostTwo

namespace Resources

variable {F Status : Type}

theorem coinbaseAdded_eq (t : T F Status) : coinbaseAdded t = t.coinbase.parts := by
  rw [coinbaseAdded]
  cases t.coinbase <;> rfl

/-! ## Lists of fees -/

theorem sum_map_le_of_sublist {α : Type} {l l' : List α} (h : l.Sublist l') (f : α → Nat) :
    (l.map f).sum ≤ (l'.map f).sum :=
  (h.map f).sum_le_sum fun _ _ => Nat.zero_le _

theorem owed_le_sum {k : Type} [LinearOrder k] (l : List (k × Fee)) (key : k) :
    FeeMap.owed l key ≤ (l.map (·.2.val)).sum :=
  sum_map_le_of_sublist List.filter_sublist _

/-- What works owe to their provers. -/
def entries (works : List (TransactionSnarkWork F)) : List (PublicKey × Fee) := works.map fun w => (w.prover, w.fee)

theorem singles_perm (works : List (TransactionSnarkWork F)) :
    (singles works).Perm ((entries works).filter fun e => e.2 ≠ 0) := by
  refine (List.reverse_perm _).trans (.of_eq ?_)
  rw [entries, List.filter_map, ← List.filterMap_eq_filter, List.map_filterMap]
  refine List.filterMap_congr fun w _ => ?_
  by_cases hw : w.fee = 0 <;> simp [hw, Option.guard]

theorem mem_singles {works : List (TransactionSnarkWork F)} {e : PublicKey × Fee} (h : e ∈ singles works) :
    e.1 ∈ works.map (·.prover) := by
  have := List.mem_of_mem_filter ((singles_perm works).mem_iff.1 h)
  obtain ⟨w, hw, rfl⟩ := List.mem_map.1 this
  exact List.mem_map_of_mem hw

theorem sum_singles_le (works : List (TransactionSnarkWork F)) :
    ((singles works).map (·.2.val)).sum ≤ (works.map (·.fee.val)).sum := by
  rw [((singles_perm works).map _).sum_eq]
  refine (sum_map_le_of_sublist List.filter_sublist _).trans (le_of_eq ?_)
  rw [entries, List.map_map]
  rfl

/-- The map of the fees that are owed for works whose fees do not overflow. -/
theorem exists_feeTransfers {works : List (TransactionSnarkWork F)} (hlt : (works.map (·.fee.val)).sum < 2 ^ 64) :
    ∃ feeTransfers : FeeMap PublicKey, FeeMap.ofAlistReduce (singles works) = .ok feeTransfers :=
  FeeMap.ofAlistReduce_ok fun key => ((owed_le_sum _ key).trans (sum_singles_le works)).trans_lt hlt

/-! ## Selecting works for the coinbase -/

theorem taken_subset (isTwo : Bool) (works : List (TransactionSnarkWork F)) (amount budget : Amount) :
    taken isTwo works amount budget ⊆ works := by
  obtain ⟨others, hperm, -⟩ := taken_perm isTwo works amount budget
  intro w hw
  exact hperm.mem_iff.2 (List.mem_append_left _ hw)

theorem paid_subset (ws : List (TransactionSnarkWork F)) : paid ws ⊆ ws := by
  rcases paid_cases ws with h | h <;> rw [h]
  · exact List.nil_subset _
  · exact List.Subset.refl _

section Select

variable [DecidableEq F] {c : ConstraintConstants}

/-- The works taken when works are selected for a coinbase: none when the
amount, the budget or the sum of two fees overflows. -/
def coinbaseTaken (c : ConstraintConstants) (isTwo : Bool) (works : List (TransactionSnarkWork F))
    (isCoinbaseReceiverNew superchargeCoinbase : Bool) : List (TransactionSnarkWork F) :=
  match coinbaseAmount superchargeCoinbase c with
  | .ok (some amount) =>
    match coinbaseBudget c isCoinbaseReceiverNew amount with
    | some budget => if (chooseWork isTwo works amount budget).isSome then taken isTwo works amount budget else []
    | none => []
  | _ => []

/-- The parts that `chooseWork` returns are as many as it is asked for. -/
theorem chooseWork_parts {isTwo : Bool} {works rest : List (TransactionSnarkWork F)} {amount budget : Amount}
    {cb : AtMostTwo CoinbaseFeeTransfer} (h : chooseWork isTwo works amount budget = some (cb, rest)) :
    cb.parts = if isTwo then 2 else 1 := by
  rw [chooseWork] at h
  cases isTwo with
  | true =>
    rw [if_pos rfl] at h
    split at h
    next => cases h
    next => split at h <;> cases h <;> rfl
    next =>
      obtain ⟨sum, -, h⟩ := Option.map_eq_some_iff.1 h
      split at h
      next => cases h; rfl
      next => split at h <;> cases h <;> rfl
  | false =>
    obtain ⟨w, -, h⟩ := Option.map_eq_some_iff.1 h
    split at h <;> cases h <;> rfl

/-- Works are selected unless the coinbase amount raises. -/
theorem exists_coinbaseWork {superchargeCoinbase : Bool} {amount : Option Amount}
    (h : coinbaseAmount superchargeCoinbase c = .ok amount) (isTwo : Bool) (works : List (TransactionSnarkWork F))
    (isCoinbaseReceiverNew : Bool) :
    ∃ choice, coinbaseWork c isTwo works isCoinbaseReceiverNew superchargeCoinbase = .ok choice := by
  rw [coinbaseWork, h]
  exact ⟨_, rfl⟩

theorem coinbaseAmount_of_coinbaseWork {isTwo isCoinbaseReceiverNew superchargeCoinbase : Bool}
    {works : List (TransactionSnarkWork F)}
    {choice : Option (AtMostTwo CoinbaseFeeTransfer × List (TransactionSnarkWork F))}
    (h : coinbaseWork c isTwo works isCoinbaseReceiverNew superchargeCoinbase = .ok choice) :
    ∃ amount, coinbaseAmount superchargeCoinbase c = .ok amount := by
  obtain ⟨amount, hamount, -⟩ := Exn.andThen_eq_ok.1 h
  exact ⟨amount, hamount⟩

/-- The parts and the remaining works, by the works taken. -/
theorem coinbaseWork_eq_ok {isTwo isCoinbaseReceiverNew superchargeCoinbase : Bool}
    {works : List (TransactionSnarkWork F)}
    {choice : Option (AtMostTwo CoinbaseFeeTransfer × List (TransactionSnarkWork F))}
    (h : coinbaseWork c isTwo works isCoinbaseReceiverNew superchargeCoinbase = .ok choice) :
    (choice = none → coinbaseTaken c isTwo works isCoinbaseReceiverNew superchargeCoinbase = []) ∧
      ∀ r, choice = some r → r.1.parts = (if isTwo then 2 else 1) ∧
        r.1.toList = (paid (coinbaseTaken c isTwo works isCoinbaseReceiverNew superchargeCoinbase)).map transfer ∧
        r.2 = diff works ((coinbaseTaken c isTwo works isCoinbaseReceiverNew superchargeCoinbase).map
          (·.statement)) := by
  obtain ⟨amount, hamount, h⟩ := Exn.andThen_eq_ok.1 h
  cases h
  rw [coinbaseTaken, hamount]
  cases amount with
  | none => exact ⟨fun _ => rfl, fun r h => by cases h⟩
  | some amount =>
    rw [Option.bind_some]
    cases hbudget : coinbaseBudget c isCoinbaseReceiverNew amount with
    | none => exact ⟨fun _ => by simp only [hbudget], fun r h => by cases h⟩
    | some budget =>
      rw [Option.bind_some]
      cases hchoice : chooseWork isTwo works amount budget with
      | none => exact ⟨fun _ => by simp [hbudget, hchoice], fun r h => by cases h⟩
      | some r =>
        refine ⟨fun h => (by cases h), fun r' h => ?_⟩
        cases h
        simp only [hbudget, hchoice, Option.isSome_some, if_true]
        exact ⟨chooseWork_parts hchoice, chooseWork_eq hchoice⟩

/-- The works taken when the works in the list are selected again. -/
def reselectTaken (c : ConstraintConstants) (t : T F Status) : List (TransactionSnarkWork F) :=
  match t.coinbase with
  | .zero => []
  | .one _ => coinbaseTaken c false t.completedWorkRev t.isCoinbaseReceiverNew t.superchargeCoinbase
  | .two _ => coinbaseTaken c true t.completedWorkRev t.isCoinbaseReceiverNew t.superchargeCoinbase

theorem coinbaseTaken_cases (isTwo : Bool) (works : List (TransactionSnarkWork F))
    (isCoinbaseReceiverNew superchargeCoinbase : Bool) :
    coinbaseTaken c isTwo works isCoinbaseReceiverNew superchargeCoinbase = [] ∨
      ∃ amount budget, coinbaseTaken c isTwo works isCoinbaseReceiverNew superchargeCoinbase =
        taken isTwo works amount budget := by
  rw [coinbaseTaken]
  split
  next amount _ =>
    split
    next budget _ =>
      split
      next => exact .inr ⟨amount, budget, rfl⟩
      next => exact .inl rfl
    next => exact .inl rfl
  next => exact .inl rfl

theorem coinbaseTaken_subset (isTwo : Bool) (works : List (TransactionSnarkWork F))
    (isCoinbaseReceiverNew superchargeCoinbase : Bool) :
    coinbaseTaken c isTwo works isCoinbaseReceiverNew superchargeCoinbase ⊆ works := by
  rcases @coinbaseTaken_cases F _ c isTwo works isCoinbaseReceiverNew superchargeCoinbase with h | h
  · rw [h]
    exact List.nil_subset _
  · obtain ⟨amount, budget, h⟩ := h
    rw [h]
    exact taken_subset _ _ _ _

theorem reselectTaken_subset (t : T F Status) : reselectTaken c t ⊆ t.completedWorkRev := by
  rw [reselectTaken]
  split
  next => exact List.nil_subset _
  next => exact coinbaseTaken_subset _ _ _ _
  next => exact coinbaseTaken_subset _ _ _ _

theorem exists_reselectCoinbase {t : T F Status} {amount : Option Amount}
    (h : coinbaseAmount t.superchargeCoinbase c = .ok amount) : ∃ r, reselectCoinbase c t = .ok r := by
  rw [reselectCoinbase]
  split
  next => exact ⟨_, rfl⟩
  next =>
    obtain ⟨choice, hchoice⟩ := exists_coinbaseWork h false t.completedWorkRev t.isCoinbaseReceiverNew
    exact ⟨_, by rw [hchoice, Exn.andThen_ok]⟩
  next =>
    obtain ⟨choice, hchoice⟩ := exists_coinbaseWork h true t.completedWorkRev t.isCoinbaseReceiverNew
    exact ⟨_, by rw [hchoice, Exn.andThen_ok]⟩

/-- Selecting again keeps the number of parts, which pay for works taken. -/
theorem reselectCoinbase_eq_ok {t : T F Status} {r : AtMostTwo CoinbaseFeeTransfer × List (TransactionSnarkWork F)}
    (h : reselectCoinbase c t = .ok r) :
    r.1.parts = t.coinbase.parts ∧ r.1.toList = (paid (reselectTaken c t)).map transfer ∧
      r.2 = diff t.completedWorkRev ((reselectTaken c t).map (·.statement)) := by
  have select : ∀ {isTwo : Bool} {choice : Option (AtMostTwo CoinbaseFeeTransfer × List (TransactionSnarkWork F))}
      {unpaid : AtMostTwo CoinbaseFeeTransfer} {ts : List (TransactionSnarkWork F)},
      coinbaseWork c isTwo t.completedWorkRev t.isCoinbaseReceiverNew t.superchargeCoinbase = .ok choice →
      unpaid.parts = (if isTwo then 2 else 1) → unpaid.toList = [] →
      ts = coinbaseTaken c isTwo t.completedWorkRev t.isCoinbaseReceiverNew t.superchargeCoinbase →
      (choice.getD (unpaid, t.completedWorkRev)).1.parts = (if isTwo then 2 else 1) ∧
        (choice.getD (unpaid, t.completedWorkRev)).1.toList = (paid ts).map transfer ∧
        (choice.getD (unpaid, t.completedWorkRev)).2 = diff t.completedWorkRev (ts.map (·.statement)) := by
    intro isTwo choice unpaid ts hwork hparts hlist hts
    obtain ⟨hnone, hsome⟩ := coinbaseWork_eq_ok hwork
    cases choice with
    | none =>
      rw [hts, hnone rfl]
      exact ⟨hparts, hlist, (diff_nil _).symm⟩
    | some r =>
      rw [hts]
      exact hsome r rfl
  rw [reselectCoinbase] at h
  rw [reselectTaken]
  split at h
  next hzero =>
    cases h
    rw [hzero]
    exact ⟨rfl, rfl, (diff_nil _).symm⟩
  next x hone =>
    obtain ⟨choice, hwork, h⟩ := Exn.andThen_eq_ok.1 h
    cases h
    rw [hone]
    exact select hwork rfl rfl rfl
  next x htwo =>
    obtain ⟨choice, hwork, h⟩ := Exn.andThen_eq_ok.1 h
    cases h
    rw [htwo]
    exact select hwork rfl rfl rfl

/-- The works taken for the initial coinbase. -/
def initTaken (c : ConstraintConstants) (cwSeq : List (TransactionSnarkWork F))
    (addCoinbase isCoinbaseReceiverNew superchargeCoinbase : Bool) : List (TransactionSnarkWork F) :=
  if addCoinbase then coinbaseTaken c false cwSeq isCoinbaseReceiverNew superchargeCoinbase else []

theorem initTaken_subset (cwSeq : List (TransactionSnarkWork F))
    (addCoinbase isCoinbaseReceiverNew superchargeCoinbase : Bool) :
    initTaken c cwSeq addCoinbase isCoinbaseReceiverNew superchargeCoinbase ⊆ cwSeq := by
  rw [initTaken]
  split
  next => exact coinbaseTaken_subset _ _ _ _
  next => exact List.nil_subset _

theorem initCoinbaseAndFeeTransfers_eq_ok {cwSeq : List (TransactionSnarkWork F)}
    {addCoinbase isCoinbaseReceiverNew superchargeCoinbase : Bool} {jobCount slots : Int}
    {r : AtMostTwo CoinbaseFeeTransfer × List (PublicKey × Fee)}
    (h : initCoinbaseAndFeeTransfers c cwSeq addCoinbase jobCount slots isCoinbaseReceiverNew superchargeCoinbase =
      .ok r) :
    (∃ amount, coinbaseAmount superchargeCoinbase c = .ok amount) ∧
      r.1.toList =
        (paid (initTaken c cwSeq addCoinbase isCoinbaseReceiverNew superchargeCoinbase)).map transfer ∧
      r.2 = singles (diff cwSeq
        ((initTaken c cwSeq addCoinbase isCoinbaseReceiverNew superchargeCoinbase).map (·.statement))) := by
  obtain ⟨choice, hwork, h⟩ := Exn.andThen_eq_ok.1 h
  obtain ⟨hnone, hsome⟩ := coinbaseWork_eq_ok hwork
  refine ⟨coinbaseAmount_of_coinbaseWork hwork, ?_⟩
  rw [initTaken]
  split at h
  next chosen _ =>
    cases h
    obtain ⟨-, hlist, hrest⟩ := hsome chosen rfl
    rw [if_pos rfl]
    exact ⟨hlist, by rw [hrest]⟩
  next =>
    rw [if_pos rfl, hnone rfl, List.map_nil, diff_nil]
    split at h
    next =>
      cases h
      exact ⟨rfl, rfl⟩
    next =>
      cases h
      exact ⟨rfl, rfl⟩
  next =>
    cases h
    rw [if_neg Bool.false_ne_true, List.map_nil, diff_nil]
    exact ⟨rfl, rfl⟩

/-- What the resources are after works have been selected again. -/
structure Reselected (c : ConstraintConstants) (t t' : T F Status) : Prop where
  eq : t' = { t with coinbase := t'.coinbase, feeTransfers := t'.feeTransfers }
  parts : t'.coinbase.parts = t.coinbase.parts
  coinbase : t'.coinbase.toList = (paid (reselectTaken c t)).map transfer
  feeTransfers : FeeMap.ofAlistReduce
    (singles (diff t.completedWorkRev ((reselectTaken c t).map (·.statement)))) = .ok t'.feeTransfers

theorem reselectCoinbaseWork_eq_ok {t t' : T F Status} (h : reselectCoinbaseWork c t = .ok t') :
    Reselected c t t' := by
  obtain ⟨r, hr, h⟩ := Exn.andThen_eq_ok.1 h
  obtain ⟨feeTransfers, hmap, h⟩ := Exn.andThen_eq_ok.1 h
  obtain ⟨hparts, hcoinbase, hrest⟩ := reselectCoinbase_eq_ok hr
  cases h
  exact ⟨rfl, hparts, hcoinbase, hrest ▸ hmap⟩

theorem exists_reselectCoinbaseWork {t : T F Status} {amount : Option Amount}
    (hamount : coinbaseAmount t.superchargeCoinbase c = .ok amount)
    (hlt : (t.completedWorkRev.map (·.fee.val)).sum < 2 ^ 64) : ∃ t', reselectCoinbaseWork c t = .ok t' := by
  obtain ⟨r, hr⟩ := exists_reselectCoinbase hamount
  obtain ⟨-, -, hrest⟩ := reselectCoinbase_eq_ok hr
  have hlt' : (r.2.map (·.fee.val)).sum < 2 ^ 64 := by
    rw [hrest]
    exact (sum_map_le_of_sublist List.filter_sublist _).trans_lt hlt
  obtain ⟨feeTransfers, hmap⟩ := exists_feeTransfers hlt'
  exact ⟨_, by rw [reselectCoinbaseWork, hr, Exn.andThen_ok, hmap, Exn.andThen_ok]⟩

namespace Reselected

variable {t t' : T F Status}

/-- The map has fees for works in the list only. -/
theorem feeTransfers_provers (h : Reselected c t t') :
    ∀ key ∈ t'.feeTransfers, key ∈ t.completedWorkRev.map (·.prover) := by
  intro key hkey
  obtain ⟨e, he, rfl⟩ := List.mem_map.1 ((FeeMap.ofAlistReduce_eq_ok h.feeTransfers key).2.1 hkey)
  obtain ⟨w, hw, hprover⟩ := List.mem_map.1 (mem_singles he)
  exact List.mem_map.2 ⟨w, List.mem_of_mem_filter hw, hprover⟩

/-- The parts pay for works in the list. -/
theorem coinbase_provers (h : Reselected c t t') :
    ∀ ft ∈ t'.coinbase.toList, ft.receiverPk ∈ t.completedWorkRev.map (·.prover) := by
  intro ft hft
  rw [h.coinbase] at hft
  obtain ⟨w, hw, rfl⟩ := List.mem_map.1 hft
  exact List.mem_map.2 ⟨w, reselectTaken_subset t (paid_subset _ hw), rfl⟩

end Reselected

end Select

/-! ## The budget -/

theorem feeDifference_eq_ok {x y : Except String Fee} {b : Fee} (h : feeDifference x y = .ok b) :
    ∃ r cost, x = .ok r ∧ y = .ok cost ∧ b.val + cost.val = r.val := by
  rw [feeDifference.eq_def] at h
  split at h
  next r cost =>
    cases hsub : Currency.sub r cost with
    | none =>
      rw [hsub] at h
      cases h
    | some d =>
      rw [hsub] at h
      cases h
      obtain ⟨hle, hval⟩ := Currency.sub_eq_some.1 hsub
      exact ⟨r, cost, rfl, rfl, by omega⟩
  next => cases h
  next => cases h

theorem feeDifference_zero (r : Fee) : feeDifference (.ok r) (.ok 0) = .ok r := by
  have hsub : Currency.sub r 0 = some r := Currency.sub_eq_some.2 ⟨Nat.zero_le _, rfl⟩
  rw [feeDifference, hsub, option]

theorem option_eq_ok {α : Type} {lab : String} {x : Option α} {a : α} (h : option lab x = .ok a) : x = some a := by
  cases x with
  | none => cases h
  | some b =>
    cases h
    rfl

theorem budget_cases (t : T F Status) : t.budget.isOk = false ∨ ∃ b, t.budget = .ok b := by
  cases t.budget with
  | error e => exact .inl rfl
  | ok b => exact .inr ⟨b, rfl⟩

/-- Adding the fees of the other keys, over a list of entries. -/
theorem foldl_others_eq_ok {key : PublicKey} : ∀ {l : List (PublicKey × Fee)} {acc : Except String Fee} {s : Fee},
    l.foldl (fun fees e =>
      match fees with
      | .ok others => if key = e.1 then .ok others else option "Fee overflow" (Currency.add others e.2)
      | .error e => .error e) acc = .ok s →
    ∃ a, acc = .ok a ∧ s.val = a.val + FeeMap.totalOwed (fun key' => key ≠ key') l
  | [], acc, s, h => ⟨s, h, by simp [FeeMap.totalOwed]⟩
  | e :: l, acc, s, h => by
    obtain ⟨a, ha, hs⟩ := foldl_others_eq_ok (l := l) h
    rw [FeeMap.totalOwed_cons, hs]
    cases acc with
    | error e => cases ha
    | ok others =>
      refine ⟨others, rfl, ?_⟩
      dsimp only at ha
      by_cases hkey : key = e.1
      · rw [if_pos hkey] at ha
        cases ha
        simp [hkey]
      · rw [if_neg hkey] at ha
        have := Currency.add_eq_some.1 (option_eq_ok ha)
        simp [hkey]
        omega

theorem proverFeeOthers_eq_ok {t : T F Status} {others : Fee} (h : proverFeeOthers t = .ok others) :
    others.val = FeeMap.total (fun key => t.receiverPk ≠ key) t.feeTransfers := by
  rw [proverFeeOthers, Std.ExtTreeMap.foldl_eq_foldl_toList] at h
  obtain ⟨a, ha, hs⟩ := foldl_others_eq_ok h
  cases ha
  rwa [Fin.val_zero, Nat.zero_add] at hs

/-- A budget that is computed is what the fees of the commands leave after
the fee transfers to the other provers. -/
theorem rebudget_eq_ok {t : T F Status} {b : Fee} (h : rebudget t = .ok (.ok b)) :
    b.val + FeeMap.total (fun key => t.receiverPk ≠ key) t.feeTransfers =
      (t.commandsRev.map (feeOf commandFee)).sum := by
  obtain ⟨revenue, hrevenue, h⟩ := Exn.andThen_eq_ok.1 h
  obtain ⟨r, cost, rfl, hcost, hb⟩ := feeDifference_eq_ok (Except.ok.inj h)
  rw [← proverFeeOthers_eq_ok hcost, hb, sumFees_eq_ok hrevenue]

theorem exists_rebudget {t : T F Status} {fees : Fee} (h : sumFees commandFee t.commandsRev = .ok (.ok fees)) :
    ∃ budget, rebudget t = .ok budget :=
  ⟨_, by rw [rebudget, h, Exn.andThen_ok]⟩

/-- With nothing to pay, the budget is the fees of the commands. -/
theorem rebudget_of_empty {t : T F Status} {fees : Fee} (h : sumFees commandFee t.commandsRev = .ok (.ok fees))
    (hempty : t.feeTransfers = ∅) : rebudget t = .ok (.ok fees) := by
  have hcost : proverFeeOthers t = .ok 0 := by
    rw [proverFeeOthers, Std.ExtTreeMap.foldl_eq_foldl_toList, hempty]
    rfl
  rw [rebudget, h, Exn.andThen_ok, hcost, feeDifference_zero]

/-! ## Discarding -/

/-- The last work is discarded: the budget grows by its fee, or is computed
when it was an error. -/
theorem discardLastWork_cons [DecidableEq F] {c : ConstraintConstants} {t : T F Status} {w : TransactionSnarkWork F}
    {rem : List (TransactionSnarkWork F)} {r : T F Status × Option (TransactionSnarkWork F)}
    (hworks : t.completedWorkRev = w :: rem) (h : discardLastWork c t = .ok r) :
    ∃ newT budget,
      Reselected c { t with completedWorkRev := rem, discarded := t.discarded.addCompletedWork w } newT ∧
        r = ({ newT with budget }, some w) ∧
        (∀ b, t.budget = .ok b → budget = option "Currency overflow" (Currency.add b w.fee)) ∧
        (t.budget.isOk = false → rebudget newT = .ok budget) := by
  rw [discardLastWork] at h
  split at h
  next hnil =>
    rw [hnil] at hworks
    cases hworks
  next w' rem' hcons =>
    rw [hcons] at hworks
    obtain ⟨rfl, rfl⟩ := List.cons.inj hworks
    obtain ⟨newT, hnew, h⟩ := Exn.andThen_eq_ok.1 h
    obtain ⟨budget, hbudget, h⟩ := Exn.andThen_eq_ok.1 h
    refine ⟨newT, budget, reselectCoinbaseWork_eq_ok hnew, (Except.ok.inj h).symm, fun b hb => ?_, fun herror => ?_⟩
    · rw [hb] at hbudget
      exact (Except.ok.inj hbudget).symm
    · cases hb : t.budget with
      | ok b =>
        rw [hb] at herror
        cases herror
      | error e =>
        rw [hb] at hbudget
        exact hbudget

theorem discardLastWork_nil [DecidableEq F] {c : ConstraintConstants} {t : T F Status}
    (hworks : t.completedWorkRev = []) : discardLastWork c t = .ok (t, none) := by
  rw [discardLastWork]
  split
  next => rfl
  next hcons =>
    rw [hworks] at hcons
    cases hcons

/-- The last command is discarded: the budget shrinks by its fee, or is
computed when it was an error. -/
theorem discardUserCommand_cons {t : T F Status} {uc : Command Status} {rem : List (Command Status)}
    {r : T F Status × Option (Command Status)} (hcommands : t.commandsRev = uc :: rem)
    (h : discardUserCommand t = .ok r) :
    ∃ budget,
      r = ({ t with commandsRev := rem, discarded := t.discarded.addUserCommand uc, budget }, some uc) ∧
        (∀ b, t.budget = .ok b →
          ∃ fee, commandFee uc = .ok fee ∧ budget = option "Fee insufficient" (Currency.sub b fee)) ∧
        (t.budget.isOk = false → rebudget { t with commandsRev := rem } = .ok budget) := by
  rw [discardUserCommand] at h
  split at h
  next hnil =>
    rw [hnil] at hcommands
    cases hcommands
  next uc' rem' hcons =>
    rw [hcons] at hcommands
    obtain ⟨rfl, rfl⟩ := List.cons.inj hcommands
    obtain ⟨budget, hbudget, h⟩ := Exn.andThen_eq_ok.1 h
    refine ⟨budget, (Except.ok.inj h).symm, fun b hb => ?_, fun herror => ?_⟩
    · rw [hb] at hbudget
      obtain ⟨fee, hfee, hbudget⟩ := Exn.andThen_eq_ok.1 hbudget
      exact ⟨fee, hfee, (Except.ok.inj hbudget).symm⟩
    · cases hb : t.budget with
      | ok b =>
        rw [hb] at herror
        cases herror
      | error e =>
        rw [hb] at hbudget
        exact hbudget

theorem discardUserCommand_nil {t : T F Status} (hcommands : t.commandsRev = []) :
    discardUserCommand t = (decrCoinbase t).andThen fun t => .ok (t, none) := by
  rw [discardUserCommand]
  split
  next => rfl
  next hcons =>
    rw [hcommands] at hcons
    cases hcons

/-- The fee transfer that discarding a part of the coinbase moves to the map. -/
def movedFeeTransfer : AtMostTwo CoinbaseFeeTransfer → Option CoinbaseFeeTransfer
  | .one (some ft) => some ft
  | .two (some (_, some ft2)) => some ft2
  | _ => none

/-- A part of the coinbase is discarded: one without a fee transfer, or one
whose fee transfer is put into the map. -/
theorem decrCoinbase_eq_ok {t t' : T F Status} (h : decrCoinbase t = .ok t') :
    (∃ coinbase, movedFeeTransfer t.coinbase = none ∧ t' = { t with coinbase } ∧
      coinbase.toList = t.coinbase.toList ∧ coinbase.parts = t.coinbase.parts - 1) ∨
    ∃ ft coinbase budget, movedFeeTransfer t.coinbase = some ft ∧
      t' = { t with coinbase, feeTransfers := t.feeTransfers.insert ft.receiverPk ft.fee, budget } ∧
        t.coinbase.toList = coinbase.toList ++ [ft] ∧ coinbase.parts = t.coinbase.parts - 1 ∧
        rebudget { t with coinbase, feeTransfers := t.feeTransfers.insert ft.receiverPk ft.fee } = .ok budget := by
  rw [decrCoinbase] at h
  split at h
  next hcoinbase =>
    cases h
    exact .inl ⟨_, by rw [hcoinbase]; rfl, rfl, rfl, by rw [hcoinbase]; rfl⟩
  next hcoinbase =>
    cases h
    rw [hcoinbase]
    exact .inl ⟨_, rfl, rfl, rfl, rfl⟩
  next hcoinbase =>
    cases h
    rw [hcoinbase]
    exact .inl ⟨_, rfl, rfl, rfl, rfl⟩
  next hcoinbase =>
    cases h
    rw [hcoinbase]
    exact .inl ⟨_, rfl, rfl, rfl, rfl⟩
  next ft hcoinbase =>
    obtain ⟨budget, hbudget, h⟩ := Exn.andThen_eq_ok.1 h
    cases h
    rw [hcoinbase]
    exact .inr ⟨ft, _, budget, rfl, rfl, rfl, rfl, hbudget⟩
  next ft1 ft2 hcoinbase =>
    obtain ⟨budget, hbudget, h⟩ := Exn.andThen_eq_ok.1 h
    cases h
    rw [hcoinbase]
    exact .inr ⟨ft2, _, budget, rfl, rfl, rfl, rfl, hbudget⟩

namespace Sample

/-- A stake delegation, by the key with that number. -/
def command (payer : Nat) (fee : Fee) : Command Unit :=
  ⟨.signedCommand ⟨⟨⟨fee, 1, ⟨payer, false⟩, 0, 0, 0⟩, .stakeDelegation ⟨payer, false⟩ ⟨payer, false⟩⟩,
    ⟨payer, false⟩, 0⟩, ()⟩

end Sample

end Resources

end Mina.StagedLedger
