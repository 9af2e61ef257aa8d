/-
When the transactions of a pre-diff can be computed, and how many they are.

It takes a map of what the provers other than the receiver are owed beside the
coinbase, and fees of the commands that suffice for it: then `deduct` finds
what it subtracts, the remainder is what the fees leave, and the fee transfers
are the entries of the map, with one for the receiver if the remainder is not
zero, two to a transaction.
-/
import Mina.StagedLedger.PreDiffInfo

namespace Mina.StagedLedger.PreDiffInfo

open Resources (ConstraintConstants commandFee entries sum_map_le_of_sublist)

variable {F Status : Type}

def toOthers (receiver : PublicKey) (fts : List CoinbaseFeeTransfer) : List CoinbaseFeeTransfer :=
  fts.filter fun ft => receiver ≠ ft.receiverPk

/-! ## Coinbases -/

theorem create_ok {amount : Amount} {receiver : PublicKey} {feeTransfer : Option CoinbaseFeeTransfer}
    (hfee : ∀ ft ∈ feeTransfer, ft.fee ≤ amount) :
    ∃ cb, Coinbase.create amount receiver feeTransfer = .ok cb ∧
      cb.feeTransfer.toList = toOthers receiver feeTransfer.toList := by
  cases feeTransfer with
  | none => exact ⟨_, rfl, rfl⟩
  | some ft =>
    have hvalid : ft.fee ≤ amount := hfee ft rfl
    refine ⟨_, by rw [Coinbase.create, if_pos (by simpa [Coinbase.isValid] using hvalid)], ?_⟩
    by_cases hreceiver : receiver = ft.receiverPk <;> simp [toOthers, hreceiver]

/-- At most one part, which the coinbase amount pays for. -/
theorem createCoinbase_ok {c : ConstraintConstants} {coinbaseParts : AtMostTwo CoinbaseFeeTransfer}
    {receiver : PublicKey} {coinbaseAmount : Amount} (hparts : coinbaseParts.parts ≤ 1)
    (hfee : ∀ ft ∈ coinbaseParts.toList, ft.fee ≤ coinbaseAmount) :
    ∃ coinbases, createCoinbase c coinbaseParts receiver coinbaseAmount = .ok coinbases ∧
      coinbases.length = coinbaseParts.parts ∧
      (coinbases.flatMap fun cb => cb.feeTransfer.toList) = toOthers receiver coinbaseParts.toList := by
  cases coinbaseParts with
  | zero => exact ⟨[], rfl, rfl, rfl⟩
  | one x =>
    obtain ⟨cb, hcb, hft⟩ := @create_ok coinbaseAmount receiver x fun ft hft => hfee ft (Option.mem_toList.2 hft)
    refine ⟨[cb], by rw [createCoinbase, hcb]; rfl, rfl, ?_⟩
    simpa [AtMostTwo.toList] using hft
  | two x =>
    rw [AtMostTwo.parts] at hparts
    omega

/-! ## Fee transfers -/

theorem length_groupList {α : Type} : ∀ l : List α, (OneOrTwo.groupList l).length = (l.length + 1) / 2
  | [] => by simp [OneOrTwo.groupList]
  | [a] => by simp [OneOrTwo.groupList]
  | a :: b :: rest => by
    rw [OneOrTwo.groupList, List.length_cons, length_groupList rest, List.length_cons, List.length_cons]
    omega

/-- Deducting what the map has raises nothing. -/
theorem fold_deduct_ok : ∀ {fts : List CoinbaseFeeTransfer} {m : FeeMap PublicKey},
    (∀ p, FeeMap.owed (paidEntries fts) p ≤ FeeMap.amount m p) → ∃ m', Exn.fold deduct m fts = .ok m'
  | [], m, _ => ⟨m, rfl⟩
  | ft :: fts, m, hle => by
    have hsplit : ∀ p, FeeMap.owed (paidEntries (ft :: fts)) p =
        FeeMap.owed [(ft.receiverPk, ft.fee)] p + FeeMap.owed (paidEntries fts) p :=
      FeeMap.owed_append [(ft.receiverPk, ft.fee)] (paidEntries fts)
    have hfirst : ft.fee.val ≤ FeeMap.amount m ft.receiverPk := by
      have := hle ft.receiverPk
      rw [hsplit, FeeMap.owed_cons, if_pos rfl] at this
      dsimp only at this
      omega
    have hok : ∃ m1, deduct m ft = .ok m1 := by
      rw [deduct]
      split
      next => exact ⟨m, rfl⟩
      next fee hsome =>
        rw [FeeMap.amount_of_some hsome] at hfirst
        cases hsub : Currency.sub fee ft.fee with
        | none =>
          have := Currency.sub_eq_none.1 hsub
          omega
        | some newFee => exact ⟨_, rfl⟩
    obtain ⟨m1, h1⟩ := hok
    obtain ⟨hstep, -⟩ := deduct_eq_ok h1 hfirst
    obtain ⟨m', hm'⟩ := @fold_deduct_ok fts m1 fun p => by
      have := hle p
      have := hstep p
      rw [hsplit] at *
      omega
    exact ⟨m', Exn.fold_cons_eq_ok.2 ⟨m1, h1, hm'⟩⟩

/-- Fee transfers in one token can be combined. -/
theorem mapList_ofSingles_ok {l : List FeeTransfer.Single} (token : TokenId) (h : ∀ s ∈ l, s.feeToken = token) :
    ∃ fts, Exn.mapList FeeTransfer.ofSingles (OneOrTwo.groupList l) = .ok fts := by
  have hgroup : ∀ s ∈ OneOrTwo.groupList l, ∃ ft, FeeTransfer.ofSingles s = .ok ft ∧ True := by
    intro s hs
    have htoken : ∀ x ∈ s.toList, x.feeToken = token := fun x hx =>
      h x (by rw [← flatMap_groupList l]; exact List.mem_flatMap.2 ⟨s, hs, hx⟩)
    cases s with
    | one x => exact ⟨_, rfl, trivial⟩
    | two x y =>
      have hsame : x.feeToken = y.feeToken :=
        (htoken x (by simp [OneOrTwo.toList])).trans (htoken y (by simp [OneOrTwo.toList])).symm
      exact ⟨_, by rw [FeeTransfer.ofSingles, if_pos hsame], trivial⟩
  obtain ⟨fts, hfts, -⟩ := Exn.mapList_of_forall hgroup
  exact ⟨fts, hfts⟩

theorem createFeeTransfers_ok {completedWorks : List (TransactionSnarkWork F)} {delta : Fee}
    {publicKey : PublicKey} {coinbaseFts : List CoinbaseFeeTransfer}
    (hlt : ∀ p, FeeMap.owed ((publicKey, delta) :: entries completedWorks) p < 2 ^ 64)
    (hle : ∀ p, FeeMap.owed (paidEntries coinbaseFts) p ≤
      FeeMap.owed ((publicKey, delta) :: entries completedWorks) p) :
    ∃ feeTransfers, createFeeTransfers completedWorks delta publicKey coinbaseFts = .ok feeTransfers := by
  obtain ⟨singlesMap, hmap⟩ := FeeMap.ofAlistReduce_ok fun p =>
    (owed_feeSingles completedWorks delta publicKey p).trans_lt (hlt p)
  obtain ⟨m, hm⟩ := fold_deduct_ok fun p =>
    (hle p).trans_eq ((FeeMap.ofAlistReduce_eq_ok hmap p).1.trans (owed_feeSingles _ _ _ _)).symm
  have htokens : ∀ s ∈ m.toList.map fun e => FeeTransfer.Single.mk e.1 e.2 TokenId.default,
      s.feeToken = TokenId.default := by
    intro s hs
    obtain ⟨e, -, rfl⟩ := List.mem_map.1 hs
    rfl
  obtain ⟨fts, hfts⟩ := mapList_ofSingles_ok TokenId.default htokens
  refine ⟨fts, ?_⟩
  rw [createFeeTransfers, hmap]
  refine bind_eq_ok.2 ⟨singlesMap, rfl, ?_⟩
  rw [hm, Exn.andThen_ok, hfts]
  rfl

/-- Works whose fees do not overflow have a sum. -/
theorem exists_sumWorks {works : List (TransactionSnarkWork F)} (hlt : (works.map (·.fee.val)).sum < 2 ^ 64) :
    ∃ workFee, sumFees (fun w => .ok w.fee) works = .ok (.ok workFee) :=
  sumFees_ok (fun w _ => ⟨w.fee, rfl⟩) hlt

theorem feeRemainder_ok {commands : List (Resources.Command Status)} {completedWorks : List (TransactionSnarkWork F)}
    {coinbaseFee fees b : Fee} (hcommands : sumFees commandFee commands = .ok (.ok fees))
    (hlt : (completedWorks.map (·.fee.val)).sum < 2 ^ 64)
    (hsum : b.val + (completedWorks.map (·.fee.val)).sum = fees.val + coinbaseFee.val)
    (hle : coinbaseFee.val ≤ (completedWorks.map (·.fee.val)).sum) :
    feeRemainder commands completedWorks coinbaseFee = .ok (.ok b) := by
  obtain ⟨workFee, hworkFee⟩ := exists_sumWorks hlt
  have hval : workFee.val = (completedWorks.map (·.fee.val)).sum := sumFees_eq_ok hworkFee
  rw [feeRemainder, hcommands, Exn.andThen_ok, hworkFee, Exn.andThen_ok]
  cases htotal : Currency.sub workFee coinbaseFee with
  | none =>
    have := Currency.sub_eq_none.1 htotal
    omega
  | some total =>
    obtain ⟨-, htotal'⟩ := Currency.sub_eq_some.1 htotal
    have hrest : Currency.sub fees total = some b := Currency.sub_eq_some.2 ⟨by omega, by omega⟩
    refine congrArg Except.ok (bind_eq_ok.2 ⟨fees, rfl, bind_eq_ok.2 ⟨workFee, rfl, ?_⟩⟩)
    dsimp only
    rw [htotal, Option.getD_some, hrest]

/-! ## The transaction data -/

/-- How many transactions there are. -/
def TransactionData.count (data : TransactionData Status) : Nat :=
  data.commands.length + data.coinbases.length + data.feeTransfers.length

theorem owed_toOthers (receiver p : PublicKey) (fts : List CoinbaseFeeTransfer) :
    FeeMap.owed (paidEntries (toOthers receiver fts)) p =
      if receiver ≠ p then FeeMap.owed (paidEntries fts) p else 0 := by
  have hfilter : paidEntries (toOthers receiver fts) = (paidEntries fts).filter fun e => receiver ≠ e.1 := by
    rw [paidEntries, paidEntries, toOthers, List.filter_map]
    rfl
  rw [hfilter, FeeMap.owed_filter fun key => receiver ≠ key]
  simp only [decide_eq_true_iff]

theorem NonZero.mem_iff {m : FeeMap PublicKey} (hm : NonZero m) (key : PublicKey) :
    key ∈ m ↔ 0 < FeeMap.amount m key :=
  ⟨hm key, FeeMap.mem_of_amount_pos⟩

/-- A map with the entries of another one for the other provers, and what is
left for the receiver. -/
theorem size_feeTransfers {m m' : FeeMap PublicKey} {receiver : PublicKey} {b : Fee} (hm : NonZero m)
    (hm' : NonZero m')
    (h : ∀ p, FeeMap.amount m' p = if receiver ≠ p then FeeMap.amount m p else b.val) :
    m'.size = (m.filter fun key _ => receiver ≠ key).size + if b > 0 then 1 else 0 := by
  have hothers : ∀ key, key ∈ m.filter (fun key _ => receiver ≠ key) ↔ receiver ≠ key ∧ 0 < FeeMap.amount m key := by
    intro key
    rw [FeeMap.mem_filter fun key => receiver ≠ key, decide_eq_true_iff, hm.mem_iff, and_comm]
  obtain ⟨S, hS⟩ := FeeMap.exists_keys (m.filter fun key _ => receiver ≠ key)
  have hself : receiver ∉ S := by
    rw [← hS, hothers]
    exact fun h => h.1 rfl
  have hb : b > 0 ↔ 0 < b.val := by rw [gt_iff_lt, Fin.lt_def, Fin.val_zero]
  rw [FeeMap.size_eq_card hS]
  by_cases hpos : b > 0
  · rw [if_pos hpos, ← Finset.card_insert_of_notMem hself]
    refine FeeMap.size_eq_card fun key => ?_
    rw [hm'.mem_iff, h, Finset.mem_insert, ← hS, hothers]
    split_ifs with hkey
    · simp [hkey, Ne.symm hkey]
    · simp [hb.1 hpos, not_not.1 hkey]
  · rw [if_neg hpos, Nat.add_zero]
    refine FeeMap.size_eq_card fun key => ?_
    rw [hm'.mem_iff, h, ← hS, hothers]
    split_ifs with hkey
    · simp [hkey]
    · have := mt hb.2 hpos
      simp only [this, hkey, false_and]

/-- The transactions of a pre-diff: the commands, the coinbase, the fee
transfers of the map for the other provers, and one for the receiver if
something is left. -/
theorem getTransactionData_ok {c : ConstraintConstants} {coinbaseParts : AtMostTwo CoinbaseFeeTransfer}
    {receiver : PublicKey} {coinbaseAmount : Amount} {commands : List (Resources.Command Status)}
    {completedWorks : List (TransactionSnarkWork F)} {m : FeeMap PublicKey} {b fees : Fee}
    (hparts : coinbaseParts.parts ≤ 1) (hfee : ∀ ft ∈ coinbaseParts.toList, ft.fee ≤ coinbaseAmount)
    (hcommands : sumFees commandFee commands = .ok (.ok fees))
    (hlt : (completedWorks.map (·.fee.val)).sum < 2 ^ 64) (hnonzero : NonZero m)
    (hprovers : ∀ p, receiver ≠ p → FeeMap.amount m p + FeeMap.owed (paidEntries coinbaseParts.toList) p =
      FeeMap.owed (entries completedWorks) p)
    (hbudget : b.val + FeeMap.total (fun key => receiver ≠ key) m = fees.val) :
    ∃ data, getTransactionData c coinbaseParts receiver coinbaseAmount commands completedWorks = .ok (.ok data) ∧
      data.count = commands.length +
        ((m.filter fun key _ => receiver ≠ key).size + (if b > 0 then 1 else 0) + 1) / 2 + coinbaseParts.parts := by
  obtain ⟨coinbases, hcoinbases, hlength, hfts⟩ := @createCoinbase_ok c _ receiver _ hparts hfee
  let works := completedWorks.filter fun w => receiver ≠ w.prover
  let others := m.filter fun key _ => receiver ≠ key
  have hothers : ∀ p, FeeMap.amount others p + FeeMap.owed (paidEntries (toOthers receiver coinbaseParts.toList)) p =
      FeeMap.owed (entries works) p := by
    intro p
    rw [FeeMap.amount_filter fun key => receiver ≠ key, owed_toOthers, owed_others]
    simp only [decide_eq_true_iff]
    split_ifs with hp
    · exact hprovers p hp
    · rfl
  have htotal := FeeMap.total_add_totalOwed (fun _ => true) fun p _ => hothers p
  rw [FeeMap.total_filter fun key => receiver ≠ key, totalOwed_all, totalOwed_all, sum_paidEntries,
    sum_entries] at htotal
  have hworks : (works.map (·.fee.val)).sum < 2 ^ 64 := (sum_map_le_of_sublist List.filter_sublist _).trans_lt hlt
  have hpaid : ∃ coinbaseFee, sumFees (fun ft => .ok ft.fee) (toOthers receiver coinbaseParts.toList) =
      .ok (.ok coinbaseFee) := by
    refine sumFees_ok (fun ft _ => ⟨ft.fee, rfl⟩) (lt_of_le_of_lt ?_ hworks)
    exact (Nat.le_add_left _ _).trans_eq htotal
  obtain ⟨coinbaseFee, hcoinbaseFee⟩ := hpaid
  have hval : coinbaseFee.val = ((toOthers receiver coinbaseParts.toList).map (·.fee.val)).sum :=
    sumFees_eq_ok hcoinbaseFee
  have hremainder : feeRemainder commands works coinbaseFee = .ok (.ok b) :=
    feeRemainder_ok hcommands hworks (by omega) (by omega)
  have hle : ∀ p, FeeMap.owed (paidEntries (toOthers receiver coinbaseParts.toList)) p ≤
      FeeMap.owed ((receiver, b) :: entries works) p := by
    intro p
    rw [FeeMap.owed_cons]
    have := hothers p
    omega
  have hreceiver : FeeMap.owed (entries works) receiver = 0 := by rw [owed_others, if_neg fun h => h rfl]
  obtain ⟨feeTransfers, htransfers⟩ := createFeeTransfers_ok (fun p => by
    rw [FeeMap.owed_cons]
    split
    next hp =>
      rw [← hp, hreceiver]
      exact b.isLt
    next =>
      rw [Nat.zero_add]
      exact ((Resources.owed_le_sum _ p).trans_eq (sum_entries works)).trans_lt hworks) hle
  obtain ⟨m', hnonzero', hgroups, hamount⟩ := createFeeTransfers_eq_ok htransfers hle
  refine ⟨⟨commands, coinbases, feeTransfers⟩, ?_, ?_⟩
  · rw [getTransactionData, hcoinbases]
    dsimp only
    rw [hfts, hcoinbaseFee, Exn.andThen_ok, Exn.andThen_ok, hremainder, Exn.andThen_ok]
    refine congrArg Except.ok (bind_eq_ok.2 ⟨b, rfl, bind_eq_ok.2 ⟨feeTransfers, htransfers, rfl⟩⟩)
  · have hsize := @size_feeTransfers m m' receiver b hnonzero hnonzero' fun p => by
      have hafter := hamount p
      rw [FeeMap.owed_cons, owed_toOthers, owed_others] at hafter
      by_cases hp : receiver = p
      · rw [if_neg (not_not.2 hp), if_pos hp, if_neg (not_not.2 hp)] at hafter
        rw [if_neg (not_not.2 hp)]
        exact hafter
      · rw [if_pos hp, if_neg hp, if_pos hp] at hafter
        have := hprovers p hp
        rw [if_pos hp]
        omega
    rw [TransactionData.count, hlength, hgroups, length_groupList, List.length_map, Std.ExtTreeMap.length_toList, hsize]
    dsimp only
    omega

end Mina.StagedLedger.PreDiffInfo
