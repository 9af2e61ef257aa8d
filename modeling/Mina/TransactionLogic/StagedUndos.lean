/-
Undoing fee transfers and coinbases, and with them every transaction: after
`undo_applyTransaction` the ledger is the one before the transaction, with
its accounts at their locations and the same next available token.
-/
import Mina.TransactionLogic.Undo

namespace Mina.TransactionLogic

open LedgerIntf LedgerM PlainLedger

variable {F VK Hash : Type} [ChainHashes F] [LedgerHash F VK Hash]

/-! ## Accounts that are there -/

/-- No account is created where there is one. -/
theorem getOrCreate_of_find {l : PlainLedger F VK} {accountId : AccountId} {a : Account F VK}
    (h : l.find accountId = some a) :
    ∃ i, l.locationOfAccount accountId = some i ∧
      (LedgerIntf.getOrCreate accountId : LedgerM (PlainLedger F VK) _).run l = (.ok (.existed, a, i), l) := by
  obtain ⟨i, hi, hget⟩ := Accounts.find_eq_some.1 h
  refine ⟨i, hi, ?_⟩
  change (PlainLedger.getOrCreate accountId : LedgerM (PlainLedger F VK) _) l = _
  rw [PlainLedger.getOrCreate, run_getOrCreateAccount_found hi]
  dsimp only
  rw [hget]

section Emptys

omit [ChainHashes F] [LedgerHash F VK Hash]

variable {l : PlainLedger F VK} {x y : AccountId}

theorem mem_emptys : x ∈ l.emptys y ↔ l.find y = none ∧ x = y := by
  rw [emptys]
  split
  next h => simp [h]
  next h => simp [h]

theorem mem_emptys_self : x ∈ l.emptys x ↔ l.find x = none := by simp [mem_emptys]

theorem mem_emptys_left : x ∈ l.emptys x ++ l.emptys y ↔ l.find x = none := by
  rw [List.mem_append, mem_emptys_self, mem_emptys]
  exact ⟨fun h => h.elim id fun h => h.2 ▸ h.1, .inl⟩

theorem mem_emptys_right : y ∈ l.emptys x ++ l.emptys y ↔ l.find y = none := by
  rw [List.mem_append, mem_emptys_self, mem_emptys]
  exact ⟨fun h => h.elim (fun h => h.2 ▸ h.1) id, .inr⟩

end Emptys

theorem run_check_bind {L α : Type} {b : Bool} {e : TransactionError} (h : b = true) (k : Unit → LedgerM L α) (l : L) :
    (orRaise (check b e) >>= k).run l = (k ()).run l := run_orRaise_bind (check_eq_ok.2 h) k l

/-! ## Rewards -/

section Reward

variable {fee : Fee} {slot : GlobalSlot} {l₀ : PlainLedger F VK} {x y : AccountId} {reward : Nat}
  {a b : Account F VK} {previous : List AccountId}

omit [LedgerHash F VK Hash] in
/-- The reward is given back, less the fee for the creation. -/
theorem Rewarded.undo (h : Rewarded fee slot l₀.toAccounts x reward a) (hprevious : x ∈ previous ↔ l₀.find x = none)
    {amount : Amount} (hamount : amount.val = reward) :
    ∃ m, subAccountCreationFee fee (recordedState previous x) amount = .ok m ∧
      m.val + (l₀.account x).balance.val = a.balance.val := by
  have hbalance := h.balance
  have hstate : (if recordedState previous x = .added then fee.val else 0) = creationFee fee l₀.toAccounts x := by
    rw [recordedState, creationFee]
    simp only [hprevious]
    split <;> rfl
  have hle : creationFee fee l₀.toAccounts x ≤ reward := by
    have := h.le
    omega
  have hlt := amount.isLt
  refine ⟨⟨amount.val - creationFee fee l₀.toAccounts x, by omega⟩, subAccountCreationFee_eq_ok.2 ?_, ?_⟩
  · rw [hstate]
    dsimp only
    omega
  · dsimp only
    omega

omit [LedgerHash F VK Hash] in
/-- With the balance and the timing back, the account is as it was. -/
theorem Rewarded.restored (h : Rewarded fee slot l₀.toAccounts x reward a) :
    ({ a with balance := (l₀.account x).balance, timing := (l₀.account x).timing } : Account F VK) = l₀.account x := by
  rw [h.account]

omit [LedgerHash F VK Hash] in
theorem Rewarded.find_write (h : Rewarded fee slot l₀.toAccounts x reward a) :
    (l₀.write a).find x = some a := by rw [PlainLedger.find_write, if_pos h.identifier.symm]

omit [ChainHashes F] [LedgerHash F VK Hash] in
theorem token_lt_of_default (ha : a.identifier = x) (hx : x.tokenId = TokenId.default)
    (hdefault : TokenId.default < l₀.nextAvailableToken) : a.tokenId < l₀.nextAvailableToken := by
  rw [show a.tokenId = x.tokenId from congrArg AccountId.tokenId ha, hx]
  exact hdefault

/-- The account that was paid gets its contents back, or is removed. -/
theorem Rewarded.run_remove (h : Rewarded fee slot l₀.toAccounts x reward a) (hx : x.tokenId = TokenId.default)
    (hdefault : TokenId.default < l₀.nextAvailableToken) :
    (LedgerIntf.removeAccountsExn (l₀.emptys x) : LedgerM (PlainLedger F VK) Unit).run
      ((l₀.write a).write (l₀.account x)) = (.ok (), l₀) := by
  have hax := h.identifier
  have hid := Accounts.identifier_account l₀.toAccounts x
  have hlt {z : Account F VK} (hz : z.identifier = x) := token_lt_of_default hz hx hdefault
  have hwrite := (Undoing.refl l₀).write (hlt hax)
  rw [List.nil_append, hax] at hwrite
  refine (hwrite.write_found (hid.symm ▸ found_write_self hax) (hlt hid)).remove fun y hy => ?_
  rw [PlainLedger.find_write, PlainLedger.find_write, hid, hax]
  split
  next heq => rw [heq] at hy ⊢; rw [find_eq_account hy]
  next => rfl

/-- So do two. -/
theorem Rewarded.run_remove_two {reward' : Nat} (h : Rewarded fee slot l₀.toAccounts x reward a)
    (h' : Rewarded fee slot l₀.toAccounts y reward' b) (hne : y ≠ x) (hx : x.tokenId = TokenId.default)
    (hy : y.tokenId = TokenId.default) (hdefault : TokenId.default < l₀.nextAvailableToken) :
    (LedgerIntf.removeAccountsExn (l₀.emptys x ++ l₀.emptys y) : LedgerM (PlainLedger F VK) Unit).run
      ((((l₀.write a).write b).write (l₀.account x)).write (l₀.account y)) = (.ok (), l₀) := by
  have hax := h.identifier
  have hby := h'.identifier
  have hidx := Accounts.identifier_account l₀.toAccounts x
  have hidy := Accounts.identifier_account l₀.toAccounts y
  have hlt {z : Account F VK} {w : AccountId} (hz : z.identifier = w) (hw : w.tokenId = TokenId.default) :=
    token_lt_of_default hz hw hdefault
  have hwrite := ((Undoing.refl l₀).write (hlt hax hx)).write (hlt hby hy)
  have hemptys : (l₀.write a).emptys y = l₀.emptys y := by
    simp only [emptys, PlainLedger.find_write, hax, if_neg hne]
  rw [List.nil_append, hax, hby, hemptys] at hwrite
  have hfoundx := found_write b (found_write_self (l := l₀) hax)
  have hfoundy := found_write (l₀.account x) (found_write_self (l := l₀.write a) hby)
  have hrestored := hwrite.write_found (hidx.symm ▸ hfoundx) (hlt hidx hx)
  refine (hrestored.write_found (hidy.symm ▸ hfoundy) (hlt hidy hy)).remove fun z hz => ?_
  rw [PlainLedger.find_write, PlainLedger.find_write, PlainLedger.find_write, PlainLedger.find_write, hidy, hidx, hby,
    hax]
  split
  next heq => rw [heq] at hz ⊢; rw [find_eq_account hz]
  next =>
    split
    next heq => rw [heq] at hz ⊢; rw [find_eq_account hz]
    next => rfl

end Reward

/-! ## Fee transfers -/

section FeeTransfers

variable {l : PlainLedger F VK} {modifyBalance : AccountState → AccountId → Balance → Fee → Except TransactionError Balance}
  {modifyTiming : Account F VK → Except TransactionError Timing} {a b : Account F VK} {balance balance2 : Balance}
  {timing : Timing}

omit [ChainHashes F] [LedgerHash F VK Hash] in
/-- The account is written back where it was found. -/
theorem location_of_identifier {x : AccountId} {i : Location} (ha : l.find x = some a)
    (hi : l.locationOfAccount x = some i) (hid : b.identifier = a.identifier) :
    l.locationOfAccount b.identifier = some i := by rw [hid, Accounts.identifier_of_find ha, hi]

/-- The receiver of a transfer is there. -/
theorem processFeeTransfer_one {ft : FeeTransfer.Single} (htoken : ft.feeToken = TokenId.default)
    (ha : l.find (feeTransferReceiver ft) = some a) (htiming : modifyTiming a = .ok timing)
    (hbalance : modifyBalance .existed (feeTransferReceiver ft) a.balance ft.fee = .ok balance) :
    (processFeeTransfer (.one ft) modifyBalance modifyTiming : LedgerM (PlainLedger F VK) _).run l =
      (.ok ([], a.timing), l.write { a with balance, timing }) := by
  obtain ⟨i, hi, hget⟩ := getOrCreate_of_find ha
  rw [processFeeTransfer, run_check_bind (by simp [OneOrTwo.toList, htoken])]
  dsimp only
  rw [run_bind_of_ok hget]
  dsimp only
  rw [run_orRaise_bind htiming, run_orRaise_bind hbalance]
  exact run_set_bind (location_of_identifier ha hi rfl)

/-- Both transfers are to one receiver. -/
theorem processFeeTransfer_same {ft1 ft2 : FeeTransfer.Single} {fee : Fee} (htoken1 : ft1.feeToken = TokenId.default)
    (htoken2 : ft2.feeToken = TokenId.default) (heq : feeTransferReceiver ft1 = feeTransferReceiver ft2)
    (hfee : fee.val = ft1.fee.val + ft2.fee.val)
    (ha : l.find (feeTransferReceiver ft1) = some a) (htiming : modifyTiming a = .ok timing)
    (hbalance : modifyBalance .existed (feeTransferReceiver ft1) a.balance fee = .ok balance) :
    (processFeeTransfer (.two ft1 ft2) modifyBalance modifyTiming : LedgerM (PlainLedger F VK) _).run l =
      (.ok ([], a.timing), l.write { a with balance, timing }) := by
  obtain ⟨i, hi, hget⟩ := getOrCreate_of_find ha
  rw [processFeeTransfer, run_check_bind (by simp [OneOrTwo.toList, htoken1, htoken2])]
  dsimp only
  rw [run_bind_of_ok hget]
  dsimp only
  rw [if_pos heq, run_orRaise_bind (errorOpt_eq_ok.2 (Currency.add_eq_some.2 hfee)), run_orRaise_bind htiming,
    run_orRaise_bind hbalance]
  exact run_set_bind (location_of_identifier ha hi rfl)

/-- The two receivers are there. -/
theorem processFeeTransfer_two {ft1 ft2 : FeeTransfer.Single} (htoken1 : ft1.feeToken = TokenId.default)
    (htoken2 : ft2.feeToken = TokenId.default) (hne : feeTransferReceiver ft1 ≠ feeTransferReceiver ft2)
    (ha : l.find (feeTransferReceiver ft1) = some a) (hb : l.find (feeTransferReceiver ft2) = some b)
    (hbalance : modifyBalance .existed (feeTransferReceiver ft1) a.balance ft1.fee = .ok balance)
    (htiming : modifyTiming b = .ok timing)
    (hbalance2 : modifyBalance .existed (feeTransferReceiver ft2) b.balance ft2.fee = .ok balance2) :
    (processFeeTransfer (.two ft1 ft2) modifyBalance modifyTiming : LedgerM (PlainLedger F VK) _).run l =
      (.ok ([], b.timing), (l.write { a with balance }).write { b with balance := balance2, timing }) := by
  obtain ⟨i, hi, hget⟩ := getOrCreate_of_find ha
  obtain ⟨j, hj, hget2⟩ := getOrCreate_of_find hb
  rw [processFeeTransfer, run_check_bind (by simp [OneOrTwo.toList, htoken1, htoken2])]
  dsimp only
  rw [run_bind_of_ok hget]
  dsimp only
  rw [if_neg hne, run_bind_of_ok hget2]
  dsimp only
  rw [run_orRaise_bind hbalance, run_orRaise_bind htiming, run_orRaise_bind hbalance2]
  exact run_set_set (location_of_identifier ha hi rfl) (location_of_identifier hb hj rfl)

/-- How a receiver gives back what it was paid. -/
def modifyBalanceBack (fee : Fee) (previous : List AccountId) (aid : AccountId) (b : Balance) (f : Fee) :
    Except TransactionError Balance := do
  let amount ← subAccountCreationFee fee (recordedState previous aid) f
  subAmount b amount

variable {fee : Fee} {slot : GlobalSlot} {l₀ : PlainLedger F VK}

omit [LedgerHash F VK Hash] in
theorem Rewarded.modifyBalanceBack {x : AccountId} {reward : Nat} {previous : List AccountId}
    (h : Rewarded fee slot l₀.toAccounts x reward a) (hprevious : x ∈ previous ↔ l₀.find x = none) {amount : Fee}
    (hamount : amount.val = reward) :
    modifyBalanceBack fee previous x a.balance amount = .ok (l₀.account x).balance := by
  obtain ⟨m, hm, hbalance⟩ := h.undo hprevious hamount
  exact bind_eq_ok.2 ⟨m, hm, subAmount_eq_ok.2 (by omega)⟩

/-- The accounts are removed after the fees have been given back. -/
theorem undoFeeTransfer_eq {u : FeeTransferApplied} {l' l₁ : PlainLedger F VK} {r : List AccountId × Timing}
    (hprocess : (processFeeTransfer u.feeTransfer (fun _ => modifyBalanceBack fee u.previousEmptyAccounts)
      (fun _ => .ok u.receiverTiming) : LedgerM (PlainLedger F VK) _).run l' = (.ok r, l₁)) :
    (undoFeeTransfer fee u).run l' =
      (LedgerIntf.removeAccountsExn u.previousEmptyAccounts : LedgerM (PlainLedger F VK) Unit).run l₁ :=
  run_bind_of_ok hprocess

/-- **A fee transfer is undone.** -/
theorem undoFeeTransfer_run {u : FeeTransferApplied} {l' : PlainLedger F VK}
    (hdefault : TokenId.default < l₀.nextAvailableToken)
    (h : FeeTransferEffect fee slot l₀ u.feeTransfer u.previousEmptyAccounts u.receiverTiming l') :
    (undoFeeTransfer fee u).run l' = (.ok (), l₀) := by
  generalize htransfer : u.feeTransfer = transfer at h
  generalize hprevious : u.previousEmptyAccounts = previous at h
  generalize hreceiver : u.receiverTiming = timing at h
  cases h with
  | one token rewarded =>
    have hback := rewarded.modifyBalanceBack mem_emptys_self rfl
    rw [undoFeeTransfer_eq (by
      rw [htransfer, hprevious, hreceiver]
      exact processFeeTransfer_one token rewarded.find_write rfl hback), hprevious, rewarded.restored]
    exact rewarded.run_remove token hdefault
  | @same ft1 ft2 a token1 token2 eq fees rewarded =>
    have hback := rewarded.modifyBalanceBack mem_emptys_self (rfl : (⟨_, fees⟩ : Fee).val = _)
    rw [undoFeeTransfer_eq (by
      rw [htransfer, hprevious, hreceiver]
      exact processFeeTransfer_same token1 token2 eq rfl rewarded.find_write rfl hback), hprevious, rewarded.restored]
    exact rewarded.run_remove token1 hdefault
  | @two ft1 ft2 a b token1 token2 ne rewarded1 timing rewarded2 =>
    have hback1 := rewarded1.modifyBalanceBack (mem_emptys_left (y := feeTransferReceiver ft2)) rfl
    have hback2 := rewarded2.modifyBalanceBack (mem_emptys_right (x := feeTransferReceiver ft1)) rfl
    have hfind1 : ((l₀.write a).write b).find (feeTransferReceiver ft1) = some a := by
      rw [PlainLedger.find_write, rewarded2.identifier, if_neg ne.symm, rewarded1.find_write]
    have hfind2 : ((l₀.write a).write b).find (feeTransferReceiver ft2) = some b := by
      rw [PlainLedger.find_write, if_pos rewarded2.identifier.symm]
    have hrestored1 := rewarded1.restored
    rw [← timing] at hrestored1
    rw [undoFeeTransfer_eq (by
      rw [htransfer, hprevious, hreceiver]
      exact processFeeTransfer_two token1 token2 ne.symm hfind1 hfind2 hback1 rfl hback2), hprevious, hrestored1,
      rewarded2.restored]
    exact rewarded1.run_remove_two rewarded2 ne token1 token2 hdefault

end FeeTransfers

/-! ## Coinbases -/

section Coinbases

variable {fee : Fee} {slot : GlobalSlot} {l l₀ : PlainLedger F VK} {a : Account F VK}

omit [ChainHashes F] in
theorem valueExn_eq_ok {α : Type} {o : Option α} {z : α} : valueExn o = .ok z ↔ o = some z := by
  cases o <;> simp [valueExn]

theorem Rewarded.undoReward {x : AccountId} {reward : Nat} {previous : List AccountId}
    (h : Rewarded fee slot l₀.toAccounts x reward a) (hprevious : x ∈ previous ↔ l₀.find x = none) {amount : Amount}
    (hamount : amount.val = reward) (ha : l.find x = some a) (tag : String) :
    ∃ i b, undoReward fee previous l tag x amount = .ok (i, b) ∧ l.locationOfAccount b.identifier = some i ∧
      b = { a with balance := (l₀.account x).balance } := by
  obtain ⟨i, hi, hlocate⟩ := locate_of_find tag ha
  obtain ⟨m, hm, hbalance⟩ := h.undo hprevious hamount
  have hsub : valueExn (Currency.sub a.balance m) = .ok (l₀.account x).balance :=
    valueExn_eq_ok.2 (Currency.sub_eq_some.2 (by omega))
  exact ⟨i, _, bind_eq_ok.2 ⟨(i, a), hlocate, bind_eq_ok.2 ⟨m, hm, bind_eq_ok.2 ⟨_, hsub, rfl⟩⟩⟩,
    location_of_identifier ha hi rfl, rfl⟩

theorem undoTransferee_none {u : CoinbaseApplied} (h : u.coinbase.feeTransfer = none) :
    (undoTransferee fee u).run l = (.ok (u.coinbase.amount, some u.receiverTiming), l) := by
  rw [undoTransferee, h]
  rfl

/-- The transferee is written back. -/
theorem undoTransferee_some {u : CoinbaseApplied} {ft : CoinbaseFeeTransfer} {reward : Amount} {i : Location}
    (h : u.coinbase.feeTransfer = some ft) (hreward : Currency.sub u.coinbase.amount ft.fee = some reward)
    (hi : l.locationOfAccount a.identifier = some i)
    (hundo : undoReward fee u.previousEmptyAccounts l "transferee" (coinbaseFeeReceiver ft) ft.fee = .ok (i, a)) :
    (undoTransferee fee u).run l = (.ok (reward, none), l.write { a with timing := u.receiverTiming }) := by
  rw [undoTransferee, h]
  dsimp only
  rw [run_reads_bind, id_eq, run_orRaise_bind hundo]
  refine (run_set_bind (a := { a with timing := u.receiverTiming }) hi).trans ?_
  rw [run_orRaise_bind (valueExn_eq_ok.2 hreward)]
  rfl

/-- The receiver is written back, and then the accounts are removed. -/
theorem undoCoinbase_eq {u : CoinbaseApplied} {l' l : PlainLedger F VK} {reward : Amount} {timing : Option Timing}
    {i : Location} (htransferee : (undoTransferee fee u).run l' = (.ok (reward, timing), l))
    (hi : l.locationOfAccount a.identifier = some i)
    (hundo : undoReward fee u.previousEmptyAccounts l "receiver" (coinbaseReceiver u.coinbase) reward = .ok (i, a)) :
    (undoCoinbase fee u).run l' =
      (LedgerIntf.removeAccountsExn u.previousEmptyAccounts : LedgerM (PlainLedger F VK) Unit).run
        (l.write { a with timing := timing.getD a.timing }) := by
  rw [undoCoinbase, run_bind_of_ok htransferee]
  dsimp only
  rw [run_reads_bind, id_eq, run_orRaise_bind hundo]
  exact run_set_bind (a := { a with timing := timing.getD a.timing }) hi

/-- **A coinbase is undone.** -/
theorem undoCoinbase_run {u : CoinbaseApplied} {l' : PlainLedger F VK}
    (hdefault : TokenId.default < l₀.nextAvailableToken)
    (h : CoinbaseEffect fee slot l₀ u.coinbase u.previousEmptyAccounts u.receiverTiming l') :
    (undoCoinbase fee u).run l' = (.ok (), l₀) := by
  generalize hprevious : u.previousEmptyAccounts = previous at h
  generalize hreceiver : u.receiverTiming = timing at h
  cases h with
  | alone feeTransfer rewarded =>
    obtain ⟨i, b, hundo, hi, rfl⟩ := rewarded.undoReward mem_emptys_self rfl rewarded.find_write "receiver"
    rw [undoCoinbase_eq (undoTransferee_none feeTransfer) hi (by rw [hprevious]; exact hundo), hprevious, hreceiver,
      Option.getD_some, rewarded.restored]
    exact rewarded.run_remove rfl hdefault
  | @feeTransfer ft t r feeTransfer ne le transferee receiver timing =>
    obtain ⟨reward, hreward⟩ : ∃ reward : Amount, reward.val = u.coinbase.amount.val - ft.fee.val :=
      ⟨⟨u.coinbase.amount.val - ft.fee.val, by have := u.coinbase.amount.isLt; omega⟩, rfl⟩
    have hsub : Currency.sub u.coinbase.amount ft.fee = some reward := Currency.sub_eq_some.2 (by omega)
    have ht : ((l₀.write t).write r).find (coinbaseFeeReceiver ft) = some t := by
      rw [PlainLedger.find_write, receiver.identifier, if_neg ne.symm, transferee.find_write]
    have hr : (((l₀.write t).write r).write (l₀.account (coinbaseFeeReceiver ft))).find
        (coinbaseReceiver u.coinbase) = some r := by
      rw [PlainLedger.find_write, Accounts.identifier_account, if_neg ne, PlainLedger.find_write,
        if_pos receiver.identifier.symm]
    obtain ⟨i, b, hundo, hi, rfl⟩ := transferee.undoReward (mem_emptys_left (y := coinbaseReceiver u.coinbase)) rfl ht
      "transferee"
    obtain ⟨j, b, hundo', hj, rfl⟩ := receiver.undoReward (mem_emptys_right (x := coinbaseFeeReceiver ft)) hreward hr
      "receiver"
    have htransferee := undoTransferee_some feeTransfer hsub hi (by rw [hprevious]; exact hundo)
    rw [hreceiver, transferee.restored] at htransferee
    rw [undoCoinbase_eq htransferee hj (by rw [hprevious]; exact hundo'), hprevious, Option.getD_none, timing,
      receiver.restored]
    exact transferee.run_remove_two receiver ne rfl rfl hdefault

end Coinbases

/-! ## Available tokens -/

section Available

variable {fee : Fee} {slot : GlobalSlot} {l l' : PlainLedger F VK}

omit [LedgerHash F VK Hash] in
/-- Writes take the next available token at most. -/
theorem PlainLedger.Available.writes {signer : Option PublicKey} {ids : List AccountId} (h : l.Available)
    (hfits : l.nextAvailableToken.val + 1 < 2 ^ 64) (hids : ∀ x ∈ ids, x.tokenId ≤ l.nextAvailableToken)
    (hwrites : l.WritesTo slot signer ids l') :
    l'.Available ∧ (l'.nextAvailableToken = l.nextAvailableToken ∨ l'.nextAvailableToken = l.nextAvailableToken.next) := by
  have hnext : l.nextAvailableToken < l.nextAvailableToken.next := by
    rw [TokenId.next, Fin.lt_def, Fin.val_add]
    change _ < (_ + 1) % _
    rw [Nat.mod_eq_of_lt hfits]
    exact Nat.lt_succ_self _
  induction hwrites with
  | refl => exact ⟨h, .inl rfl⟩
  | @write l₁ a _ ha ih =>
    obtain ⟨havailable, hcases⟩ := ih
    have hle := hids _ ha.2
    by_cases hlt : a.tokenId < l₁.nextAvailableToken
    · refine ⟨havailable.write hlt, ?_⟩
      rw [Undoing.next_write hlt]
      exact hcases
    · have heq : l₁.nextAvailableToken = l.nextAvailableToken := by
        rcases hcases with heq | heq
        · exact heq
        · exact absurd (lt_of_le_of_lt hle (heq ▸ hnext)) hlt
      have htoken : a.tokenId = l.nextAvailableToken := le_antisymm hle (heq ▸ not_lt.1 hlt)
      have hwrite : (l₁.write a).nextAvailableToken = l.nextAvailableToken.next := by
        refine (if_pos (not_lt.1 hlt)).trans ?_
        rw [htoken]
      refine ⟨⟨?_, fun x hx => ?_⟩, .inr hwrite⟩
      · rw [hwrite]
        exact h.default.trans hnext
      · rw [hwrite]
        rw [PlainLedger.find_write] at hx
        split at hx
        next heq' =>
          rw [heq']
          exact lt_of_le_of_lt hle hnext
        next => exact (heq ▸ havailable.used x hx).trans hnext

/-- The tokens of a command's accounts are used, or the next available one. -/
theorem CommandEffect.tokens {c : SignedCommand} {a : Account F VK} {body : AppliedBody} {timing : Option Timing}
    (h : l.Available) (hfeePayer : c.feePayer.tokenId = TokenId.default)
    (heffect : CommandEffect fee slot c l a body timing l') :
    l' = l ∨ ∀ x ∈ [c.feePayer, c.source l.nextAvailableToken, c.receiver l.nextAvailableToken],
      x.tokenId ≤ l.nextAvailableToken := by
  have hall {source receiver : AccountId} (hsource : c.source l.nextAvailableToken = source)
      (hreceiver : c.receiver l.nextAvailableToken = receiver) (heq : receiver.tokenId = source.tokenId)
      (hle : source.tokenId ≤ l.nextAvailableToken) :
      ∀ x ∈ [c.feePayer, c.source l.nextAvailableToken, c.receiver l.nextAvailableToken],
        x.tokenId ≤ l.nextAvailableToken := by
    simp only [hsource, hreceiver, List.forall_mem_cons, hfeePayer, heq, hle, h.default.le, true_and]
    exact List.forall_mem_nil _
  cases heffect with
  | failed => exact .inl rfl
  | stakeDelegation hbody =>
    refine .inr (hall rfl rfl ?_ ?_)
    · rw [SignedCommand.source, SignedCommand.receiver, hbody]
      rfl
    · rw [SignedCommand.source, hbody]
      exact h.default.le
  | payment hbody hsource hreceiver hpaid =>
    have hs := (congrArg (Body.source l.nextAvailableToken) hbody).trans hsource.symm
    have hr := (congrArg (Body.receiver l.nextAvailableToken) hbody).trans hreceiver.symm
    exact .inr (hall hs hr (by rw [hsource, hreceiver]) (h.used _ hpaid.found).le)
  | createNewToken hbody hreceiver =>
    have hs := (congrArg (Body.source l.nextAvailableToken) hbody).trans hreceiver.symm
    have hr := (congrArg (Body.receiver l.nextAvailableToken) hbody).trans hreceiver.symm
    exact .inr (hall hs hr rfl (by rw [hreceiver]))
  | createTokenAccount hbody hsource hreceiver hcreated =>
    have hs := (congrArg (Body.source l.nextAvailableToken) hbody).trans hsource.symm
    have hr := (congrArg (Body.receiver l.nextAvailableToken) hbody).trans hreceiver.symm
    exact .inr (hall hs hr (by rw [hsource, hreceiver]) (hcreated.token_lt h hfeePayer (by rw [hsource, hreceiver])).le)
  | mintTokens hbody hsource hreceiver htoken hminted =>
    have hs := (congrArg (Body.source l.nextAvailableToken) hbody).trans hsource.symm
    have hr := (congrArg (Body.receiver l.nextAvailableToken) hbody).trans hreceiver.symm
    exact .inr (hall hs hr (by rw [hsource, hreceiver]) (h.used _ hminted.sourceFound).le)

theorem FeeTransferEffect.tokens {t : FeeTransfer} {previous : List AccountId} {timing : Timing}
    (h : FeeTransferEffect fee slot l t previous timing l') :
    ∀ x ∈ FeeTransfer.receivers t, x.tokenId = TokenId.default := by
  cases h with
  | one token => simp [FeeTransfer.receivers, OneOrTwo.map, OneOrTwo.toList, token]
  | same token1 token2 => simp [FeeTransfer.receivers, OneOrTwo.map, OneOrTwo.toList, token1, token2]
  | two token1 token2 => simp [FeeTransfer.receivers, OneOrTwo.map, OneOrTwo.toList, token1, token2]

/-- **The tokens that are used stay unavailable**, and a transaction takes one
at most. -/
theorem TransactionEffect.available {t : Txn} {varying : Varying F} (h : l.Available)
    (hfits : l.nextAvailableToken.val + 1 < 2 ^ 64) (heffect : TransactionEffect fee slot l t varying l') :
    l'.Available ∧ l'.nextAvailableToken.val ≤ l.nextAvailableToken.val + 1 := by
  have hnext : (l.nextAvailableToken.next).val = l.nextAvailableToken.val + 1 := by
    rw [TokenId.next, Fin.val_add]
    exact Nat.mod_eq_of_lt hfits
  have hval : l'.nextAvailableToken = l.nextAvailableToken ∨ l'.nextAvailableToken = l.nextAvailableToken.next →
      l'.nextAvailableToken.val ≤ l.nextAvailableToken.val + 1 := by
    rintro (heq | heq)
    · rw [heq]
      exact Nat.le_succ _
    · rw [heq, hnext]
  have hdefault {ids : List AccountId} (hids : ∀ x ∈ ids, x.tokenId = TokenId.default) :
      ∀ x ∈ ids, x.tokenId ≤ l.nextAvailableToken := fun x hx => hids x hx ▸ h.default.le
  cases heffect with
  | @command c u a a' _ hfound hcharged heffect =>
    have hid : a'.identifier = c.feePayer := hcharged.identifier.trans (Accounts.identifier_of_find hfound)
    have hlt : a'.tokenId < l.nextAvailableToken := token_lt_of_default hid hcharged.token h.default
    have hfound' : (l.write a').find c.feePayer = some a' := by rw [PlainLedger.find_write, if_pos hid.symm]
    have hsame := Undoing.next_write hlt
    rcases heffect.tokens (h.write hlt) hcharged.token with rfl | htokens
    · exact ⟨h.write hlt, hval (.inl hsame)⟩
    · have havailable := (h.write hlt).writes (hsame ▸ hfits) htokens (heffect.writes hfound' hcharged.signer)
      rw [hsame] at havailable
      exact ⟨havailable.1, hval havailable.2⟩
  | @feeTransfer t u _ hdata heffect =>
    have havailable := h.writes hfits (hdefault heffect.tokens) (heffect.writes : l.WritesTo slot none _ l')
    exact ⟨havailable.1, hval havailable.2⟩
  | @coinbase cb u _ hdata heffect =>
    have htokens : ∀ x ∈ cb.accountsAccessed, x.tokenId = TokenId.default := by
      simp [Coinbase.accountsAccessed]
    have havailable := h.writes hfits (hdefault htokens) (heffect.writes : l.WritesTo slot none _ l')
    exact ⟨havailable.1, hval havailable.2⟩

end Available

/-! ## Transactions -/

section Runs

variable {fee : Fee} {slot : GlobalSlot} {l l' : PlainLedger F VK}

/-- **A transaction is undone.** -/
theorem TransactionEffect.undo {t : Txn} {applied : TransactionApplied F Hash} (h : l.Available)
    (heffect : TransactionEffect fee slot l t applied.varying l') :
    (Mina.TransactionLogic.undo fee applied).run l' = (.ok (), l) := by
  obtain ⟨previousHash, varying⟩ := applied
  dsimp only at heffect
  cases heffect with
  | command hfound hcharged heffect hdata hchain htiming =>
    exact FeeCharged.undo ⟨h, hfound, hcharged, hdata, hchain, htiming⟩ heffect
  | feeTransfer hdata heffect =>
    subst hdata
    exact undoFeeTransfer_run h.default heffect
  | coinbase hdata heffect =>
    subst hdata
    exact undoCoinbase_run h.default heffect

theorem undoUserCommand_applied {c : SignedCommand} {u : SignedCommandApplied F} (h : l.Available)
    (hu : (applyUserCommandUnchecked fee slot c).run l = (.ok u, l')) : (undoUserCommand fee u).run l' = (.ok (), l) := by
  obtain ⟨a, a', timing, hfound, hcharged, heffect, hdata, hchain, hfeePayer, rfl⟩ := applyUserCommand_effect hu
  exact FeeCharged.undo ⟨h, hfound, hcharged, hdata, hchain, hfeePayer⟩ heffect

/-- **The root after a command is computed on the ledger itself**, which is then
as it was: undoing the command never fails. -/
theorem merkleRootAfterUserCommandExn_iff {c : SignedCommand} {r : Hash × TokenId} (h : l.Available) :
    (merkleRootAfterUserCommandExn fee slot c).run l = (.ok r, l') ↔
      l' = l ∧ ∃ u l₁, (applyUserCommandUnchecked fee slot c).run l = (.ok u, l₁) ∧
        r = (l₁.merkleRoot, l₁.nextAvailableToken) := by
  constructor
  · intro hrun
    obtain ⟨u, l₁, hu, hrun⟩ := run_bind_eq_ok.1 hrun
    replace hrun := reads_bind_eq_ok.1 hrun
    replace hrun := reads_bind_eq_ok.1 hrun
    obtain ⟨_, l₂, hundo, hrun⟩ := run_bind_eq_ok.1 hrun
    obtain ⟨rfl, rfl⟩ := pure_eq_ok.1 hrun
    rw [undoUserCommand_applied h hu] at hundo
    exact ⟨(Prod.mk.inj hundo).2.symm, u, l₁, hu, rfl⟩
  · rintro ⟨rfl, u, l₁, hu, rfl⟩
    rw [merkleRootAfterUserCommandExn, run_bind_of_ok hu, run_reads_bind, run_reads_bind,
      run_bind_of_ok (undoUserCommand_applied h hu)]
    rfl

theorem SampleRun.ledger_available : SampleRun.ledger.Available := by
  refine ⟨by decide, fun x hx => ?_⟩
  obtain ⟨a, ha⟩ := Option.ne_none_iff_exists'.1 hx
  obtain ⟨i, -, hslot, -⟩ := Accounts.location_of_find ha
  have hmem := List.mem_of_getElem? hslot
  simp only [SampleRun.ledger, List.mem_cons, Option.some.injEq, List.not_mem_nil, or_false] at hmem
  rw [← Accounts.identifier_of_find ha]
  rcases hmem with rfl | rfl
  · decide
  · decide

/-- It creates an account. -/
def SampleRun.payment : SignedCommand :=
  SampleRun.signed SampleRun.alice 0 (.payment ⟨SampleRun.alice, SampleRun.carol, TokenId.default, 20⟩)

open SampleRun in
theorem merkleRootAfterUserCommandExn_sample :
    ∃ u l₁, (applyUserCommandUnchecked 1 12 payment).run ledger = (.ok u, l₁) ∧ l₁ ≠ ledger ∧
      (merkleRootAfterUserCommandExn 1 12 payment).run ledger =
        (.ok (l₁.merkleRoot, l₁.nextAvailableToken), ledger) := by
  have hok : ((applyUserCommandUnchecked 1 12 payment).run ledger).1.isOk = true := by decide +kernel
  have hne : ((applyUserCommandUnchecked 1 12 payment).run ledger).2 ≠ ledger := by decide +kernel
  rcases hu : (applyUserCommandUnchecked 1 12 payment).run ledger with ⟨_ | u, l₁⟩
  · rw [hu] at hok
    cases hok
  · rw [hu] at hne
    exact ⟨u, l₁, rfl, hne, (merkleRootAfterUserCommandExn_iff ledger_available).2 ⟨rfl, u, l₁, hu, rfl⟩⟩

/-- **A run is undone** by undoing its transactions, the latest first. -/
theorem undo_applyTransactions {ts : List (GlobalSlot × Txn)} {us : List (TransactionApplied F Hash)}
    (h : l.Available) (hfits : l.nextAvailableToken.val + ts.length < 2 ^ 64)
    (hrun : (applyTransactions fee ts).run l = (.ok us, l')) :
    (StagedUndos.apply fee us.reverse).run l' = (.ok (), l) := by
  refine applyTransactions_induction (P := fun l ts us l' => l.Available →
    l.nextAvailableToken.val + ts.length < 2 ^ 64 → (StagedUndos.apply fee us.reverse).run l' = (.ok (), l))
    (fun l _ _ => rfl) ?_ hrun h hfits
  intro l slot t applied l₁ ts us l' heffect ih havailable hfits
  rw [List.length_cons] at hfits
  obtain ⟨havailable₁, hnext⟩ := heffect.available havailable (by omega)
  rw [List.reverse_cons]
  refine StagedUndos.apply_append (ih havailable₁ (by omega)) ?_
  exact run_bind_of_ok (heffect.undo havailable)

open SampleRun in
theorem undo_applyTransactions_sample :
    applied.length = 6 ∧ run.2 ≠ ledger ∧ (StagedUndos.apply 1 applied.reverse).run run.2 = (.ok (), ledger) :=
  ⟨by decide +kernel, by decide +kernel, undo_applyTransactions ledger_available (by decide) run_eq⟩

end Runs

end Mina.TransactionLogic
