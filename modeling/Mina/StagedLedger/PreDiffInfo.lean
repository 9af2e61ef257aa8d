/-
The coinbases and the fee transfers of a pre-diff (`get_transaction_data` of
`pre_diff_info.ml`). The receiver gets what the fees of the commands leave
after the works of other provers; the fees of works that a coinbase pays for
are deducted from what their provers get.

What `User_command.fee_exn` and the sum of the coinbase's fees raise is raised
(`Exn`); the other failures are an `Error`. `Or_error.try_with` makes an error
of an exception, with its text; of several errors that of the first is kept.
-/
import Mina.StagedLedger.ResourceAccounts

namespace Mina.StagedLedger.PreDiffInfo

open Resources (ConstraintConstants commandFee entries singles transfer owed_singles owed_entries_perm
  owed_entries_append sum_map_le_of_sublist)

variable {F Status : Type}

/-- `Pre_diff_info.Error.t`, as far as these functions return it. -/
inductive Error where
  | coinbaseError (err : String)
  | insufficientFee (f1 f2 : Fee)
  | unexpected (e : String)

def toStagedLedgerOrError {α : Type} (x : Except String α) : Except Error α := x.mapError .unexpected

/-! ## Coinbases -/

def coinbaseOrError {α : Type} (x : Except String α) : Except Error α := x.mapError .coinbaseError

def underflowErr (a1 a2 : Amount) : Except Error Amount :=
  match Currency.sub a1 a2 with
  | some x => .ok x
  | none => .error (.coinbaseError ("underflow when splitting coinbase: Minuend: " ++ toString a1.val ++
      " Subtrahend: " ++ toString a2.val ++ " \n"))

def twoParts (receiver : PublicKey) (coinbaseAmount amt : Amount) (ft1 ft2 : Option CoinbaseFeeTransfer) :
    Except Error (List Coinbase) := do
  let remCoinbase ← underflowErr coinbaseAmount amt
  let _ ← underflowErr remCoinbase ((ft2.map (·.fee)).getD 0)
  let cb1 ← coinbaseOrError (Coinbase.create amt receiver ft1)
  let cb2 ← coinbaseOrError (Coinbase.create remCoinbase receiver ft2)
  .ok [cb1, cb2]

/-- The first of two parts is the account creation fee, and what it pays for
its work. -/
def createCoinbase (c : ConstraintConstants) (coinbaseParts : AtMostTwo CoinbaseFeeTransfer) (receiver : PublicKey)
    (coinbaseAmount : Amount) : Except Error (List Coinbase) :=
  match coinbaseParts with
  | .zero => .ok []
  | .one x => do
    let cb ← coinbaseOrError (Coinbase.create coinbaseAmount receiver x)
    .ok [cb]
  | .two none => twoParts receiver coinbaseAmount c.accountCreationFee none none
  | .two (some (ft1, ft2)) =>
    match Currency.add c.accountCreationFee ft1.fee with
    | some amount => twoParts receiver coinbaseAmount amount (some ft1) ft2
    | none => .error (.coinbaseError ("Overflow when trying to add account_creation_fee " ++
        toString c.accountCreationFee.val ++ " to a fee transfer " ++ toString ft1.fee.val))

/-! ## Fee transfers -/

/-- What the fees of the commands leave after the works that no coinbase pays
for. -/
def feeRemainder (commands : List (Resources.Command Status)) (completedWorks : List (TransactionSnarkWork F))
    (coinbaseFee : Fee) : Exn (Except Error Fee) :=
  (sumFees commandFee commands).andThen fun budget =>
    (sumFees (fun w => .ok w.fee) completedWorks).andThen fun workFee =>
      .ok do
        let budget ← toStagedLedgerOrError budget
        let workFee ← toStagedLedgerOrError workFee
        let totalWorkFee := (Currency.sub workFee coinbaseFee).getD 0
        match Currency.sub budget totalWorkFee with
        | some x => .ok x
        | none => .error (.insufficientFee budget totalWorkFee)

/-- Deduct the fee of a work that a coinbase pays for. -/
def deduct (accum : FeeMap PublicKey) (ft : CoinbaseFeeTransfer) : Exn (FeeMap PublicKey) :=
  match accum[ft.receiverPk]? with
  | none => .ok accum
  | some fee =>
    (Exn.valueExn (Currency.sub fee ft.fee)).andThen fun newFee =>
      .ok (if newFee > 0 then accum.insert ft.receiverPk newFee else accum.erase ft.receiverPk)

def createFeeTransfers (completedWorks : List (TransactionSnarkWork F)) (delta : Fee) (publicKey : PublicKey)
    (coinbaseFts : List CoinbaseFeeTransfer) : Except Error (List FeeTransfer) := do
  let singles := (if delta = 0 then [] else [(publicKey, delta)]) ++
    completedWorks.filterMap fun w => if w.fee = 0 then none else some (w.prover, w.fee)
  let singlesMap ← toStagedLedgerOrError (FeeMap.ofAlistReduce singles)
  toStagedLedgerOrError <|
    (Exn.fold deduct singlesMap coinbaseFts).andThen fun accum =>
      Exn.mapList FeeTransfer.ofSingles <| OneOrTwo.groupList <|
        accum.toList.map fun e => { receiverPk := e.1, fee := e.2, feeToken := TokenId.default }

structure TransactionData (Status : Type) where
  commands : List (Resources.Command Status)
  coinbases : List Coinbase
  feeTransfers : List FeeTransfer

def getTransactionData (c : ConstraintConstants) (coinbaseParts : AtMostTwo CoinbaseFeeTransfer)
    (receiver : PublicKey) (coinbaseAmount : Amount) (commands : List (Resources.Command Status))
    (completedWorks : List (TransactionSnarkWork F)) : Exn (Except Error (TransactionData Status)) :=
  match createCoinbase c coinbaseParts receiver coinbaseAmount with
  | .error e => .ok (.error e)
  | .ok coinbases =>
    let coinbaseFts := coinbases.flatMap fun cb => cb.feeTransfer.toList
    (sumFees (fun ft => .ok ft.fee) coinbaseFts).andThen fun coinbaseWorkFees =>
      -- `Or_error.ok_exn`
      Exn.andThen coinbaseWorkFees fun coinbaseWorkFees =>
        let txnWorksOthers := completedWorks.filter fun w => receiver ≠ w.prover
        (feeRemainder commands txnWorksOthers coinbaseWorkFees).andThen fun delta =>
          .ok do
            let delta ← delta
            let feeTransfers ← createFeeTransfers txnWorksOthers delta receiver coinbaseFts
            .ok { commands, coinbases, feeTransfers }

/-! ## What the coinbases are -/

theorem mapError_eq_ok {ε ε' α : Type} {f : ε → ε'} {x : Except ε α} {a : α} (h : x.mapError f = .ok a) :
    x = .ok a := by
  cases x with
  | error e => cases h
  | ok b =>
    cases h
    rfl

/-- A coinbase whose fee transfer is not to the receiver keeps it. -/
theorem create_eq_ok {amount : Amount} {receiver : PublicKey} {feeTransfer : Option CoinbaseFeeTransfer}
    {cb : Coinbase} (h : Coinbase.create amount receiver feeTransfer = .ok cb)
    (hothers : ∀ ft ∈ feeTransfer, ft.receiverPk ≠ receiver) :
    cb.amount = amount ∧ cb.feeTransfer = feeTransfer := by
  rw [Coinbase.create] at h
  dsimp only at h
  split at h
  next =>
    cases h
    refine ⟨rfl, ?_⟩
    cases feeTransfer with
    | none => rfl
    | some ft =>
      dsimp only [Option.bind_some]
      rw [if_neg fun h => hothers ft rfl h.symm]
  next => cases h

theorem underflowErr_eq_ok {a1 a2 x : Amount} (h : underflowErr a1 a2 = .ok x) : a1.val = a2.val + x.val := by
  rw [underflowErr] at h
  split at h
  next hsub =>
    cases h
    obtain ⟨hle, hval⟩ := Currency.sub_eq_some.1 hsub
    omega
  next => cases h

theorem twoParts_eq_ok {receiver : PublicKey} {coinbaseAmount amt : Amount} {ft1 ft2 : Option CoinbaseFeeTransfer}
    {coinbases : List Coinbase} (h : twoParts receiver coinbaseAmount amt ft1 ft2 = .ok coinbases)
    (h1 : ∀ ft ∈ ft1, ft.receiverPk ≠ receiver) (h2 : ∀ ft ∈ ft2, ft.receiverPk ≠ receiver) :
    (coinbases.flatMap fun cb => cb.feeTransfer.toList) = ft1.toList ++ ft2.toList ∧
      (coinbases.map (·.amount.val)).sum = coinbaseAmount.val := by
  obtain ⟨rest, hrest, h⟩ := bind_eq_ok.1 h
  obtain ⟨_, -, h⟩ := bind_eq_ok.1 h
  obtain ⟨cb1, hcb1, h⟩ := bind_eq_ok.1 h
  obtain ⟨cb2, hcb2, h⟩ := bind_eq_ok.1 h
  obtain ⟨hamount1, hft1⟩ := create_eq_ok (mapError_eq_ok hcb1) h1
  obtain ⟨hamount2, hft2⟩ := create_eq_ok (mapError_eq_ok hcb2) h2
  have := underflowErr_eq_ok hrest
  cases h
  simp [hamount1, hamount2, hft1, hft2]
  omega

/-- The coinbases have the fee transfers of the parts, and split the coinbase
amount. -/
theorem createCoinbase_eq_ok {c : ConstraintConstants} {coinbaseParts : AtMostTwo CoinbaseFeeTransfer}
    {receiver : PublicKey} {coinbaseAmount : Amount} {coinbases : List Coinbase}
    (h : createCoinbase c coinbaseParts receiver coinbaseAmount = .ok coinbases)
    (hothers : ∀ ft ∈ coinbaseParts.toList, ft.receiverPk ≠ receiver) :
    (coinbases.flatMap fun cb => cb.feeTransfer.toList) = coinbaseParts.toList ∧
      (coinbaseParts ≠ .zero → (coinbases.map (·.amount.val)).sum = coinbaseAmount.val) := by
  rw [createCoinbase.eq_def] at h
  split at h
  next =>
    cases h
    exact ⟨rfl, fun h => absurd rfl h⟩
  next x =>
    obtain ⟨cb, hcb, h⟩ := bind_eq_ok.1 h
    obtain ⟨hamount, hft⟩ := create_eq_ok (mapError_eq_ok hcb) fun ft hft =>
      hothers ft (Option.mem_toList.2 hft)
    cases h
    simp [hamount, hft, AtMostTwo.toList]
  next =>
    obtain ⟨hfts, hsum⟩ := twoParts_eq_ok h (by simp) (by simp)
    exact ⟨hfts, fun _ => hsum⟩
  next ft1 ft2 =>
    split at h
    next =>
      obtain ⟨hfts, hsum⟩ := twoParts_eq_ok h
        (fun ft hft => hothers ft (by simp [AtMostTwo.toList, Option.mem_some.1 hft]))
        (fun ft hft => hothers ft (by simp [AtMostTwo.toList, Option.mem_def.1 hft]))
      exact ⟨hfts, fun _ => hsum⟩
    next => cases h

/-! ## What the fee transfers are -/

/-- What the fee transfers of coinbases pay to provers. -/
def paidEntries (fts : List CoinbaseFeeTransfer) : List (PublicKey × Fee) := fts.map fun ft => (ft.receiverPk, ft.fee)

/-- No entry of the map is zero. -/
def NonZero (m : FeeMap PublicKey) : Prop := ∀ key ∈ m, 0 < FeeMap.amount m key

theorem ofAlistReduce_nonZero {l : List (PublicKey × Fee)} {m : FeeMap PublicKey}
    (h : FeeMap.ofAlistReduce l = .ok m) (hl : ∀ e ∈ l, e.2 ≠ 0) : NonZero m := by
  intro key hkey
  obtain ⟨hamount, hmem⟩ := FeeMap.ofAlistReduce_eq_ok h key
  obtain ⟨e, he, rfl⟩ := List.mem_map.1 (hmem.1 hkey)
  obtain ⟨l1, l2, hsplit⟩ := List.append_of_mem he
  have hpos := Fin.lt_def.1 (Fin.pos_iff_ne_zero.2 (hl e he))
  rw [Fin.val_zero] at hpos
  rw [hamount, hsplit, FeeMap.owed_append, FeeMap.owed_cons, if_pos rfl]
  omega

theorem deduct_eq_ok {m m' : FeeMap PublicKey} {ft : CoinbaseFeeTransfer} (h : deduct m ft = .ok m')
    (hle : ft.fee.val ≤ FeeMap.amount m ft.receiverPk) :
    (∀ p, FeeMap.amount m' p + FeeMap.owed [(ft.receiverPk, ft.fee)] p = FeeMap.amount m p) ∧
      (NonZero m → NonZero m') := by
  rw [deduct] at h
  split at h
  next hnone =>
    cases h
    rw [FeeMap.amount_of_none hnone] at hle
    refine ⟨fun p => ?_, id⟩
    rw [FeeMap.owed_cons, FeeMap.owed_nil]
    split
    · dsimp only
      omega
    · rfl
  next fee hsome =>
    obtain ⟨newFee, hsub, h⟩ := Exn.andThen_eq_ok.1 h
    obtain ⟨-, hval⟩ := Currency.sub_eq_some.1 (Exn.valueExn_eq_ok.1 hsub)
    have hamount := FeeMap.amount_of_some hsome
    have hzero : ¬ newFee > 0 → newFee.val = 0 := by
      intro hnot
      rw [gt_iff_lt, Fin.lt_def, Fin.val_zero] at hnot
      omega
    have hsame : FeeMap.amount m' ft.receiverPk = newFee.val := by
      cases h
      split
      next => rw [FeeMap.amount_insert, if_pos rfl]
      next hnot => rw [FeeMap.amount_erase, if_pos rfl, hzero hnot]
    have hother : ∀ p, ft.receiverPk ≠ p → FeeMap.amount m' p = FeeMap.amount m p := by
      intro p hp
      cases h
      split
      next => rw [FeeMap.amount_insert, if_neg hp]
      next => rw [FeeMap.amount_erase, if_neg hp]
    refine ⟨fun p => ?_, fun hnonzero key hkey => ?_⟩
    · rw [FeeMap.owed_cons, FeeMap.owed_nil]
      dsimp only
      split_ifs with hp
      · rw [← hp, hsame]
        omega
      · rw [hother p hp]
        rfl
    · by_cases hp : ft.receiverPk = key
      · rw [← hp, hsame]
        cases h
        split at hkey
        next hpos => exact Fin.lt_def.1 hpos
        next =>
          rw [hp, Std.ExtTreeMap.mem_erase] at hkey
          exact absurd (compare_eq_iff_eq.2 rfl) hkey.1
      · rw [hother key hp]
        cases h
        split at hkey
        next =>
          rcases Std.ExtTreeMap.mem_insert.1 hkey with heq | hkey
          · exact absurd (compare_eq_iff_eq.1 heq) hp
          · exact hnonzero key hkey
        next => exact hnonzero key (Std.ExtTreeMap.mem_erase.1 hkey).2

/-- Deducting what a coinbase pays, when the map has it. -/
theorem fold_deduct_eq_ok : ∀ {fts : List CoinbaseFeeTransfer} {m m' : FeeMap PublicKey},
    Exn.fold deduct m fts = .ok m' → (∀ p, FeeMap.owed (paidEntries fts) p ≤ FeeMap.amount m p) →
      (∀ p, FeeMap.amount m' p + FeeMap.owed (paidEntries fts) p = FeeMap.amount m p) ∧ (NonZero m → NonZero m')
  | [], m, m', h, _ => by
    cases h
    exact ⟨fun p => rfl, id⟩
  | ft :: fts, m, m', h, hle => by
    obtain ⟨m1, h1, h⟩ := Exn.fold_cons_eq_ok.1 h
    have hsplit : ∀ p, FeeMap.owed (paidEntries (ft :: fts)) p =
        FeeMap.owed [(ft.receiverPk, ft.fee)] p + FeeMap.owed (paidEntries fts) p :=
      FeeMap.owed_append [(ft.receiverPk, ft.fee)] (paidEntries fts)
    have hfirst : ft.fee.val ≤ FeeMap.amount m ft.receiverPk := by
      have := hle ft.receiverPk
      rw [hsplit, FeeMap.owed_cons, if_pos rfl] at this
      dsimp only at this
      omega
    obtain ⟨hstep, hnonzero⟩ := deduct_eq_ok h1 hfirst
    obtain ⟨hrest, hnonzero'⟩ := fold_deduct_eq_ok h fun p => by
      have := hle p
      have := hstep p
      rw [hsplit] at *
      omega
    refine ⟨fun p => ?_, fun h => hnonzero' (hnonzero h)⟩
    have := hstep p
    have := hrest p
    rw [hsplit]
    omega

theorem flatMap_groupList {α : Type} : ∀ l : List α, (OneOrTwo.groupList l).flatMap OneOrTwo.toList = l
  | [] => rfl
  | [a] => rfl
  | a :: b :: rest => by
    rw [OneOrTwo.groupList, List.flatMap_cons, flatMap_groupList rest]
    rfl

theorem mapList_ofSingles : ∀ {l fts : List FeeTransfer}, Exn.mapList FeeTransfer.ofSingles l = .ok fts → fts = l
  | [], fts, h => by
    cases h
    rfl
  | s :: l, fts, h => by
    obtain ⟨ft, hft, h⟩ := Exn.andThen_eq_ok.1 h
    obtain ⟨rest, hrest, h⟩ := Exn.andThen_eq_ok.1 h
    cases h
    rw [mapList_ofSingles hrest]
    cases s with
    | one s =>
      cases hft
      rfl
    | two one two =>
      rw [FeeTransfer.ofSingles] at hft
      split at hft
      next =>
        cases hft
        rfl
      next => cases hft

/-- What the receiver's remainder and the works owe. -/
theorem owed_feeSingles (completedWorks : List (TransactionSnarkWork F)) (delta : Fee) (publicKey p : PublicKey) :
    FeeMap.owed ((if delta = 0 then [] else [(publicKey, delta)]) ++
      completedWorks.filterMap fun w => if w.fee = 0 then none else some (w.prover, w.fee)) p =
        FeeMap.owed ((publicKey, delta) :: entries completedWorks) p := by
  have hworks : FeeMap.owed (completedWorks.filterMap fun w =>
      if w.fee = 0 then none else some (w.prover, w.fee)) p = FeeMap.owed (entries completedWorks) p := by
    rw [← owed_singles, singles]
    exact (FeeMap.owed_perm (List.reverse_perm _) p).symm
  rw [FeeMap.owed_append, hworks, FeeMap.owed_cons]
  congr 1
  split
  next hzero =>
    rw [hzero]
    split <;> rfl
  next => rw [FeeMap.owed_cons, FeeMap.owed_nil, Nat.add_zero]

/-- The fee transfers pay what is owed and not paid by a coinbase, and none is
zero. -/
theorem createFeeTransfers_eq_ok {completedWorks : List (TransactionSnarkWork F)} {delta : Fee}
    {publicKey : PublicKey} {coinbaseFts : List CoinbaseFeeTransfer} {feeTransfers : List FeeTransfer}
    (h : createFeeTransfers completedWorks delta publicKey coinbaseFts = .ok feeTransfers)
    (hle : ∀ p, FeeMap.owed (paidEntries coinbaseFts) p ≤
      FeeMap.owed ((publicKey, delta) :: entries completedWorks) p) :
    ∃ m : FeeMap PublicKey, NonZero m ∧
      feeTransfers = OneOrTwo.groupList
        (m.toList.map fun e => { receiverPk := e.1, fee := e.2, feeToken := TokenId.default }) ∧
      ∀ p, FeeMap.amount m p + FeeMap.owed (paidEntries coinbaseFts) p =
        FeeMap.owed ((publicKey, delta) :: entries completedWorks) p := by
  obtain ⟨singlesMap, hmap, h⟩ := bind_eq_ok.1 h
  obtain ⟨m, hm, h⟩ := Exn.andThen_eq_ok.1 (mapError_eq_ok h)
  have hmap := mapError_eq_ok hmap
  have hsingles : ∀ p, FeeMap.amount singlesMap p = FeeMap.owed ((publicKey, delta) :: entries completedWorks) p :=
    fun p => (FeeMap.ofAlistReduce_eq_ok hmap p).1.trans (owed_feeSingles completedWorks delta publicKey p)
  have hnonzero : NonZero singlesMap := by
    refine ofAlistReduce_nonZero hmap fun e he => ?_
    rcases List.mem_append.1 he with hdelta | hwork
    · split at hdelta
      next => cases hdelta
      next hne =>
        rw [List.mem_singleton.1 hdelta]
        exact hne
    · obtain ⟨w, -, hw⟩ := List.mem_filterMap.1 hwork
      split at hw
      next => cases hw
      next hne =>
        cases hw
        exact hne
  obtain ⟨hamount, hkeep⟩ := fold_deduct_eq_ok hm fun p => (hle p).trans_eq (hsingles p).symm
  exact ⟨m, hkeep hnonzero, mapList_ofSingles h, fun p => (hamount p).trans (hsingles p)⟩

theorem feeRemainder_eq_ok {commands : List (Resources.Command Status)} {completedWorks : List (TransactionSnarkWork F)}
    {coinbaseFee delta : Fee} (h : feeRemainder commands completedWorks coinbaseFee = .ok (.ok delta))
    (hle : coinbaseFee.val ≤ (completedWorks.map (·.fee.val)).sum) :
    delta.val + (completedWorks.map (·.fee.val)).sum = (commands.map (feeOf commandFee)).sum + coinbaseFee.val := by
  obtain ⟨budget, hbudget, h⟩ := Exn.andThen_eq_ok.1 h
  obtain ⟨workFee, hworkFee, h⟩ := Exn.andThen_eq_ok.1 h
  obtain ⟨budget, hb, h⟩ := bind_eq_ok.1 (Except.ok.inj h)
  obtain ⟨workFee, hw, h⟩ := bind_eq_ok.1 h
  rw [mapError_eq_ok hb] at hbudget
  rw [mapError_eq_ok hw] at hworkFee
  have hbudget := sumFees_eq_ok hbudget
  have hworkFee : workFee.val = (completedWorks.map (·.fee.val)).sum := sumFees_eq_ok hworkFee
  dsimp only at h
  split at h
  next x hsub =>
    cases h
    obtain ⟨hle', hval⟩ := Currency.sub_eq_some.1 hsub
    cases htotal : Currency.sub workFee coinbaseFee with
    | none =>
      have := Currency.sub_eq_none.1 htotal
      omega
    | some total =>
      obtain ⟨-, htotal'⟩ := Currency.sub_eq_some.1 htotal
      rw [htotal, Option.getD_some] at hle' hval
      omega
  next => cases h

/-! ## Conservation -/

theorem owed_subperm {ws works : List (TransactionSnarkWork F)} (h : ws.Subperm works) (p : PublicKey) :
    FeeMap.owed (entries ws) p ≤ FeeMap.owed (entries works) p := by
  obtain ⟨l, hperm, hsub⟩ := h
  rw [← owed_entries_perm hperm]
  exact sum_map_le_of_sublist ((hsub.map _).filter _) _

/-- The works of the other provers owe what works owe to these. -/
theorem owed_others (receiver p : PublicKey) (works : List (TransactionSnarkWork F)) :
    FeeMap.owed (entries (works.filter fun w => receiver ≠ w.prover)) p =
      if receiver ≠ p then FeeMap.owed (entries works) p else 0 := by
  have hfilter : entries (works.filter fun w => receiver ≠ w.prover) =
      (entries works).filter fun e => receiver ≠ e.1 := by
    rw [entries, entries, List.filter_map]
    rfl
  rw [hfilter, FeeMap.owed_filter fun key => receiver ≠ key]
  simp only [decide_eq_true_iff]

/-- Works of other provers are among those works of the list. -/
theorem subperm_others {receiver : PublicKey} {ws works : List (TransactionSnarkWork F)} (h : ws.Subperm works)
    (hothers : ∀ w ∈ ws, w.prover ≠ receiver) : ws.Subperm (works.filter fun w => receiver ≠ w.prover) := by
  have hall : ws.filter (fun w => receiver ≠ w.prover) = ws :=
    List.filter_eq_self.2 fun w hw => decide_eq_true (hothers w hw).symm
  obtain ⟨l, hperm, hsub⟩ := h
  refine ⟨l.filter fun w => receiver ≠ w.prover, ?_, hsub.filter _⟩
  exact (hperm.filter _).trans (.of_eq hall)

theorem totalOwed_all (l : List (PublicKey × Fee)) :
    FeeMap.totalOwed (fun _ => true) l = (l.map (·.2.val)).sum := by
  rw [FeeMap.totalOwed, List.filter_eq_self.2 fun _ _ => rfl]

theorem sum_entries (works : List (TransactionSnarkWork F)) :
    ((entries works).map (·.2.val)).sum = (works.map (·.fee.val)).sum := by
  rw [entries, List.map_map]
  rfl

theorem sum_paidEntries (fts : List CoinbaseFeeTransfer) :
    ((paidEntries fts).map (·.2.val)).sum = (fts.map (·.fee.val)).sum := by
  rw [paidEntries, List.map_map]
  rfl

/-- What fee transfers pay to provers. -/
def singleEntries (feeTransfers : List FeeTransfer) : List (PublicKey × Fee) :=
  (feeTransfers.flatMap OneOrTwo.toList).map fun s => (s.receiverPk, s.fee)

/-- **A pre-diff conserves value.** If the fee transfers of the coinbase parts
are fees of distinct works by provers other than the receiver, then the fee
transfers sum to the fees of the commands, every other prover is paid in
coinbase fee transfers and fee transfers the fees of its works, no fee transfer
is zero, and the coinbases sum to the coinbase amount when there is a part. -/
theorem getTransactionData_conserves {c : ConstraintConstants} {coinbaseParts : AtMostTwo CoinbaseFeeTransfer}
    {receiver : PublicKey} {coinbaseAmount : Amount} {commands : List (Resources.Command Status)}
    {completedWorks ws : List (TransactionSnarkWork F)} {data : TransactionData Status}
    (h : getTransactionData c coinbaseParts receiver coinbaseAmount commands completedWorks = .ok (.ok data))
    (hparts : coinbaseParts.toList = ws.map transfer) (hdistinct : ws.Subperm completedWorks)
    (hothers : ∀ w ∈ ws, w.prover ≠ receiver) :
    ((singleEntries data.feeTransfers).map (·.2.val)).sum = (commands.map (feeOf commandFee)).sum ∧
      (∀ p, p ≠ receiver →
        FeeMap.owed (paidEntries (data.coinbases.flatMap fun cb => cb.feeTransfer.toList)) p +
          FeeMap.owed (singleEntries data.feeTransfers) p = FeeMap.owed (entries completedWorks) p) ∧
      (∀ e ∈ singleEntries data.feeTransfers, e.2 ≠ 0) ∧
      (coinbaseParts ≠ .zero → (data.coinbases.map (·.amount.val)).sum = coinbaseAmount.val) := by
  rw [getTransactionData] at h
  split at h
  next => cases h
  next coinbases hcoinbases =>
    obtain ⟨workFees, hsum, hrest⟩ := Exn.andThen_eq_ok.1 h
    obtain ⟨coinbaseWorkFees, hworkFees, hrest⟩ := Exn.andThen_eq_ok.1 hrest
    obtain ⟨remainder, hdelta, hrest⟩ := Exn.andThen_eq_ok.1 hrest
    obtain ⟨delta, hremainder, hrest⟩ := bind_eq_ok.1 (Except.ok.inj hrest)
    obtain ⟨feeTransfers, htransfers, hdata⟩ := bind_eq_ok.1 hrest
    rw [hworkFees] at hsum
    rw [hremainder] at hdelta
    cases hdata
    have hreceivers : ∀ ft ∈ coinbaseParts.toList, ft.receiverPk ≠ receiver := by
      intro ft hft
      rw [hparts] at hft
      obtain ⟨w, hw, rfl⟩ := List.mem_map.1 hft
      exact hothers w hw
    obtain ⟨hfts, hamounts⟩ := createCoinbase_eq_ok hcoinbases hreceivers
    rw [hfts, hparts] at hsum htransfers
    have hpaid : paidEntries (ws.map transfer) = entries ws := by
      rw [paidEntries, List.map_map]
      rfl
    have hsub := subperm_others hdistinct hothers
    have hfees : coinbaseWorkFees.val = (ws.map (·.fee.val)).sum := by
      rw [sumFees_eq_ok hsum, List.map_map]
      rfl
    have hle : (ws.map (·.fee.val)).sum ≤
        ((completedWorks.filter fun w => receiver ≠ w.prover).map (·.fee.val)).sum := by
      obtain ⟨l, hperm, hsublist⟩ := hsub
      rw [← (hperm.map _).sum_eq]
      exact sum_map_le_of_sublist hsublist _
    have hremainder := feeRemainder_eq_ok hdelta (hfees.trans_le hle)
    obtain ⟨m, hnonzero, hsingles, hamount⟩ := createFeeTransfers_eq_ok htransfers fun p => by
      rw [hpaid, FeeMap.owed_cons]
      exact (owed_subperm hsub p).trans (Nat.le_add_left _ _)
    rw [hpaid] at hamount
    have hentries : singleEntries feeTransfers = m.toList := by
      rw [singleEntries, hsingles, flatMap_groupList, List.map_map]
      exact List.map_id _
    dsimp only
    rw [hentries, hfts, hparts, hpaid]
    refine ⟨?_, fun p hp => ?_, fun e he => ?_, hamounts⟩
    · have htotal := FeeMap.total_add_totalOwed (fun _ => true) fun p _ => hamount p
      rw [FeeMap.total, totalOwed_all, totalOwed_all, totalOwed_all, List.map_cons, List.sum_cons, sum_entries,
        sum_entries] at htotal
      dsimp only at htotal
      omega
    · have hpay := hamount p
      rw [FeeMap.owed_cons, if_neg hp.symm, owed_others, if_pos hp.symm] at hpay
      rw [FeeMap.owed_toList]
      omega
    · intro hzero
      obtain ⟨hmem, hval⟩ := FeeMap.of_mem_toList he
      have hpos := hnonzero e.1 hmem
      rw [hval, hzero] at hpos
      exact absurd hpos (Nat.lt_irrefl 0)

open Resources in
/-- A coinbase that pays for the first of two works. -/
theorem getTransactionData_conserves_sample :
    ∃ data, getTransactionData Sample.constants (.one (some ⟨⟨1, false⟩, 15⟩)) ⟨4, false⟩ 20 [Sample.command 3 20]
        Sample.works = .ok (.ok data) ∧
      ((singleEntries data.feeTransfers).map (·.2.val)).sum =
        ([Sample.command 3 20].map (feeOf commandFee)).sum := by
  have hparts : (AtMostTwo.one (some (CoinbaseFeeTransfer.mk ⟨1, false⟩ 15))).toList =
      [Sample.work 1 1 15].map transfer := rfl
  have hdistinct : [Sample.work 1 1 15].Subperm Sample.works :=
    ((List.nil_sublist [Sample.work 2 2 16]).cons_cons _).subperm
  have hothers : ∀ w ∈ [Sample.work 1 1 15], w.prover ≠ ⟨4, false⟩ := by
    intro w hw
    rw [List.mem_singleton.1 hw]
    decide
  have hok : ∃ data, getTransactionData Sample.constants (.one (some ⟨⟨1, false⟩, 15⟩)) ⟨4, false⟩ 20
      [Sample.command 3 20] Sample.works = .ok (.ok data) := ⟨_, rfl⟩
  obtain ⟨data, hdata⟩ := hok
  exact ⟨data, hdata, (getTransactionData_conserves hdata hparts hdistinct hothers).1⟩

end Mina.StagedLedger.PreDiffInfo
