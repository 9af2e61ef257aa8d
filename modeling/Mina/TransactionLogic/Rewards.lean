/-
What fee transfers and coinbases do to a plain ledger. Both get or create
the accounts they pay before they write to them; `GotOrCreated.write` says
that the creation is not seen once the account has been written.
-/
import Mina.TransactionLogic.CommandEffects

namespace Mina.TransactionLogic

open LedgerIntf LedgerM

variable {F VK Hash : Type}

/-! ## Writes -/

namespace PlainLedger

theorem updateNextAvailableToken_idem (next token : TokenId) :
    updateNextAvailableToken (updateNextAvailableToken next token) token = updateNextAvailableToken next token := by
  simp only [updateNextAvailableToken]
  split
  next => split <;> rfl
  next => rfl

/-- The second of two writes of one id stays. -/
theorem write_write {l : PlainLedger F VK} {a b : Account F VK} (h : a.identifier = b.identifier) :
    (l.write a).write b = l.write b := by
  have htoken : a.tokenId = b.tokenId := congrArg AccountId.tokenId h
  change PlainLedger.mk ((l.put a).put b) _ = PlainLedger.mk (l.put b) _
  rw [Accounts.put_put h]
  change PlainLedger.mk _ (updateNextAvailableToken (updateNextAvailableToken _ a.tokenId) b.tokenId) = _
  rw [htoken, updateNextAvailableToken_idem]

/-- Two writes of one token commute, unless both create an account. -/
theorem write_comm {l : PlainLedger F VK} {a b : Account F VK} (h : a.identifier ≠ b.identifier)
    (htoken : a.tokenId = b.tokenId) (ha : l.find a.identifier ≠ none) :
    (l.write a).write b = (l.write b).write a := by
  change PlainLedger.mk ((l.put a).put b) (updateNextAvailableToken (updateNextAvailableToken _ a.tokenId) b.tokenId) =
    PlainLedger.mk ((l.put b).put a) (updateNextAvailableToken (updateNextAvailableToken _ b.tokenId) a.tokenId)
  rw [Accounts.put_comm h (Option.isSome_iff_ne_none.2 ha), htoken]

theorem locationOfAccount_write {l : PlainLedger F VK} (a : Account F VK) {accountId : AccountId}
    (h : accountId ≠ a.identifier ∨ l.find a.identifier ≠ none) :
    (l.write a).locationOfAccount accountId = l.locationOfAccount accountId :=
  Accounts.locationOfAccount_put a (h.imp_right Option.isSome_iff_ne_none.2)

/-- The accounts that a transaction adds, as it records them. -/
def emptys (l : PlainLedger F VK) (accountId : AccountId) : List AccountId :=
  if l.find accountId = none then [accountId] else []

variable [ChainHashes F] [LedgerHash F VK Hash]

namespace GotOrCreated

variable {l l₁ l₂ : PlainLedger F VK} {x y : AccountId} {actionX actionY : AccountState} {a b a' b' : Account F VK}
  {i j : Location}

theorem emptys_eq (h : GotOrCreated l x actionX a i l₁) : previousEmptyAccounts actionX x = l.emptys x := by
  rw [previousEmptyAccounts, emptys]
  simp only [h.added]

theorem creation (h : GotOrCreated l x actionX a i l₁) (fee : Fee) :
    (if actionX = .added then fee.val else 0) = creationFee fee l.toAccounts x := by
  rw [creationFee]
  simp only [h.added]

/-- The creation is not seen after the write. -/
theorem write (h : GotOrCreated l x actionX a i l₁) (ha : a'.identifier = x) : l₁.write a' = l.write a' := by
  have hid : a.identifier = a'.identifier := by rw [h.account, ha, Accounts.identifier_account]
  rw [h.ledger]
  split
  · exact write_write hid
  · rfl

theorem run_set (h : GotOrCreated l x actionX a i l₁) (ha : a'.identifier = x) :
    (set i a' : LedgerM (PlainLedger F VK) Unit).run l₁ = (.ok (), l.write a') := by
  rw [PlainLedger.run_set (ha ▸ h.found), h.write ha]

/-- What is there after the first account is what was there before. -/
theorem find_of_ne (h : GotOrCreated l x actionX a i l₁) (hne : y ≠ x) : l₁.find y = l.find y := by
  rw [h.ledger]
  split
  · rw [find_write, if_neg]
    rw [h.account, Accounts.identifier_account]
    exact hne
  · rfl

theorem find_self (h : GotOrCreated l x actionX a i l₁) : l₁.find x ≠ none := by
  rw [ne_eq, Accounts.find_eq_none, h.found]
  exact Option.some_ne_none i

/-- The second account, in terms of the ledger before the first. -/
theorem second (h : GotOrCreated l x actionX a i l₁) (h' : GotOrCreated l₁ y actionY b j l₂) (hne : y ≠ x) :
    b = l.account y ∧ (actionY = .added ↔ l.find y = none) ∧ l₂.locationOfAccount x = some i := by
  refine ⟨?_, ?_, ?_⟩
  · rw [h'.account, Accounts.account, h.find_of_ne hne, Accounts.account]
  · rw [h'.added, h.find_of_ne hne]
  · rw [h'.ledger]
    split
    · rw [locationOfAccount_write _ (.inl _), h.found]
      rw [h'.account, Accounts.identifier_account]
      exact hne.symm
    · exact h.found

/-- What the second creation records, in terms of the ledger before the first. -/
theorem second_state (h : GotOrCreated l x actionX a i l₁) (h' : GotOrCreated l₁ y actionY b j l₂) (hne : y ≠ x)
    (fee : Fee) : previousEmptyAccounts actionY y = l.emptys y ∧
      (if actionY = .added then fee.val else 0) = creationFee fee l.toAccounts y := by
  rw [previousEmptyAccounts, emptys, creationFee]
  simp only [(h.second h' hne).2.1, and_self]

/-- Both accounts are written after both are there. -/
theorem run_set_two (h : GotOrCreated l x actionX a i l₁) (h' : GotOrCreated l₁ y actionY b j l₂) (hne : y ≠ x)
    (ha : a'.identifier = x) (hb : b'.identifier = y) :
    (set i a' : LedgerM (PlainLedger F VK) Unit).run l₂ = (.ok (), l₂.write a') ∧
      (set j b' : LedgerM (PlainLedger F VK) Unit).run (l₂.write a') = (.ok (), (l₂.write a').write b') := by
  refine ⟨PlainLedger.run_set (ha ▸ (h.second h' hne).2.2), PlainLedger.run_set ?_⟩
  rw [hb, locationOfAccount_write a' (.inl (by rw [ha]; exact hne)), h'.found]

/-- Both creations are not seen after the two writes, in either order. -/
theorem write_two (h : GotOrCreated l x actionX a i l₁) (h' : GotOrCreated l₁ y actionY b j l₂) (hne : y ≠ x)
    (htoken : x.tokenId = y.tokenId) (ha : a'.identifier = x) (hb : b'.identifier = y) :
    (l₂.write a').write b' = (l.write a').write b' ∧ (l₂.write b').write a' = (l.write a').write b' := by
  have hab : a'.identifier ≠ b'.identifier := by rw [ha, hb]; exact hne.symm
  have htok : a'.tokenId = b'.tokenId := by
    rw [← ha, ← hb] at htoken
    exact htoken
  have hb₀ : b.identifier = y := by rw [h'.account, Accounts.identifier_account]
  have hfirst : (l₂.write a').write b' = (l.write a').write b' := by
    rw [h'.ledger]
    split
    · have hcomm : (l₁.write b).write a' = (l₁.write a').write b := by
        refine (write_comm ?_ ?_ ?_).symm
        · rw [ha, hb₀]; exact hne.symm
        · rw [htok]
          exact congrArg AccountId.tokenId (hb.trans hb₀.symm)
        · rw [ha]; exact h.find_self
      rw [hcomm, write_write (hb₀.trans hb.symm), h.write ha]
    · rw [h.write ha]
  have hfound : l₂.find a'.identifier ≠ none := by
    rw [ha, ne_eq, Accounts.find_eq_none, (h.second h' hne).2.2]
    exact Option.some_ne_none i
  exact ⟨hfirst, by rw [← write_comm hab htok hfound, hfirst]⟩

end GotOrCreated

end PlainLedger

variable [ChainHashes F] [LedgerHash F VK Hash]

open PlainLedger

/-! ## Fee transfers -/

/-- An account before and after it is paid a reward, less the fee for its
creation. -/
structure Rewarded (fee : Fee) (slot : GlobalSlot) (l : Accounts F VK) (accountId : AccountId) (reward : Nat)
    (a : Account F VK) : Prop where
  account : a = { l.account accountId with balance := a.balance, timing := a.timing }
  balance : a.balance.val + creationFee fee l accountId = (l.account accountId).balance.val + reward
  timing : a.timing = (l.account accountId).timing ∨ Covered slot a

section Rewarded

variable {fee : Fee} {slot : GlobalSlot} {l : Accounts F VK} {accountId : AccountId} {reward : Nat} {a : Account F VK}

theorem Rewarded.identifier (h : Rewarded fee slot l accountId reward a) : a.identifier = accountId := by
  rw [h.account]
  exact Accounts.identifier_account l accountId

/-- The timing is updated, or kept. -/
theorem rewarded_of {balance : Balance} {timing : Timing} (ha : a = l.account accountId)
    (hle : a.balance.val ≤ balance.val) (hbalance : balance.val + creationFee fee l accountId = a.balance.val + reward)
    (htiming : timing = a.timing ∨ validateTiming a 0 slot = .ok timing) :
    Rewarded fee slot l accountId reward { a with balance, timing } := by
  subst ha
  exact ⟨rfl, hbalance, htiming.imp id fun htiming => covered_of_validateTiming htiming hle⟩

omit [LedgerHash F VK Hash] in
theorem Rewarded.le (h : Rewarded fee slot l accountId reward a) : (l.account accountId).balance.val ≤ a.balance.val := by
  have hbalance := h.balance
  rw [creationFee] at hbalance
  split at hbalance
  next hnew =>
    rw [Accounts.account, hnew]
    exact Nat.zero_le _
  next => omega

/-- A write of another account does not matter. -/
theorem Rewarded.write {l : PlainLedger F VK} {b : Account F VK}
    (h : Rewarded fee slot l.toAccounts accountId reward a) (hne : accountId ≠ b.identifier) :
    Rewarded fee slot (l.write b).toAccounts accountId reward a := by
  have haccount : (l.write b).account accountId = l.account accountId := by rw [account_write, if_neg hne]
  have hcreation : creationFee fee (l.write b).toAccounts accountId = creationFee fee l.toAccounts accountId := by
    rw [creationFee, find_write, if_neg hne, creationFee]
  refine ⟨?_, ?_, ?_⟩
  · rw [haccount]
    exact h.account
  · rw [haccount, hcreation]
    exact h.balance
  · rw [haccount]
    exact h.timing

end Rewarded

/-- The accounts added, the timing of the last receiver before and the ledger
after. -/
inductive FeeTransferEffect (fee : Fee) (slot : GlobalSlot) (l : PlainLedger F VK) :
    FeeTransfer → List AccountId → Timing → PlainLedger F VK → Prop
  | one {ft : FeeTransfer.Single} {a : Account F VK} (token : ft.feeToken = TokenId.default)
      (rewarded : Rewarded fee slot l.toAccounts (feeTransferReceiver ft) ft.fee.val a) :
      FeeTransferEffect fee slot l (.one ft) (l.emptys (feeTransferReceiver ft))
        (l.account (feeTransferReceiver ft)).timing (l.write a)
  | same {ft1 ft2 : FeeTransfer.Single} {a : Account F VK} (token1 : ft1.feeToken = TokenId.default)
      (token2 : ft2.feeToken = TokenId.default) (eq : feeTransferReceiver ft1 = feeTransferReceiver ft2)
      (fees : ft1.fee.val + ft2.fee.val < 2 ^ 64)
      (rewarded : Rewarded fee slot l.toAccounts (feeTransferReceiver ft1) (ft1.fee.val + ft2.fee.val) a) :
      FeeTransferEffect fee slot l (.two ft1 ft2) (l.emptys (feeTransferReceiver ft1))
        (l.account (feeTransferReceiver ft1)).timing (l.write a)
  | two {ft1 ft2 : FeeTransfer.Single} {a b : Account F VK} (token1 : ft1.feeToken = TokenId.default)
      (token2 : ft2.feeToken = TokenId.default) (ne : feeTransferReceiver ft2 ≠ feeTransferReceiver ft1)
      (rewarded1 : Rewarded fee slot l.toAccounts (feeTransferReceiver ft1) ft1.fee.val a)
      (timing : a.timing = (l.account (feeTransferReceiver ft1)).timing)
      (rewarded2 : Rewarded fee slot l.toAccounts (feeTransferReceiver ft2) ft2.fee.val b) :
      FeeTransferEffect fee slot l (.two ft1 ft2)
        (l.emptys (feeTransferReceiver ft1) ++ l.emptys (feeTransferReceiver ft2))
        (l.account (feeTransferReceiver ft2)).timing ((l.write a).write b)

/-- How `apply_fee_transfer` modifies a balance. -/
theorem modifyBalance_eq_ok {fee : Fee} {action : AccountState} {b c : Balance} {f : Fee}
    (h : (subAccountCreationFee fee action f >>= fun amount => addAmount b amount) = .ok c) :
    b.val ≤ c.val ∧ c.val + (if action = .added then fee.val else 0) = b.val + f.val := by
  obtain ⟨amount, hamount, hadd⟩ := bind_eq_ok.1 h
  have := subAccountCreationFee_eq_ok.1 hamount
  have := addAmount_eq_ok.1 hadd
  omega

omit [ChainHashes F] in
theorem updateTiming_eq_ok {slot : GlobalSlot} {a : Account F VK} {t : Timing}
    (h : updateTimingWhenNoDeduction slot a = .ok t) : validateTiming a 0 slot = .ok t := mapError_eq_ok.1 h

/-- **What a fee transfer does.** -/
theorem applyFeeTransfer_effect {fee : Fee} {slot : GlobalSlot} {transfer : FeeTransfer} {l l' : PlainLedger F VK}
    {u : FeeTransferApplied} (h : (applyFeeTransfer fee slot transfer).run l = (.ok u, l')) :
    u.feeTransfer = transfer ∧
      FeeTransferEffect fee slot l transfer u.previousEmptyAccounts u.receiverTiming l' := by
  obtain ⟨⟨emptys, timing⟩, l₁, hprocess, h⟩ := run_bind_eq_ok.1 h
  replace h := reads_bind_eq_ok.1 h
  obtain ⟨balances, -, h⟩ := orRaise_bind_eq_ok.1 h
  obtain ⟨rfl, rfl⟩ := pure_eq_ok.1 h
  refine ⟨rfl, ?_⟩
  obtain ⟨_, htokens, hprocess⟩ := orRaise_bind_eq_ok.1 hprocess
  replace htokens := check_eq_ok.1 htokens
  cases transfer with
  | one ft =>
    simp only [OneOrTwo.toList, List.all_cons, List.all_nil, Bool.and_true, decide_eq_true_eq] at htokens
    obtain ⟨⟨action, a, i⟩, l₂, hget, hprocess⟩ := run_bind_eq_ok.1 hprocess
    have hgot := getOrCreate_ok hget
    obtain ⟨timing', htiming, hprocess⟩ := orRaise_bind_eq_ok.1 hprocess
    obtain ⟨balance, hbalance, hprocess⟩ := orRaise_bind_eq_ok.1 hprocess
    obtain ⟨_, l₃, hset, hprocess⟩ := run_bind_eq_ok.1 hprocess
    obtain ⟨heq, rfl⟩ := pure_eq_ok.1 hprocess
    cases heq
    obtain ⟨hle, hbalance⟩ := modifyBalance_eq_ok hbalance
    rw [hgot.creation fee] at hbalance
    have hrewarded := rewarded_of hgot.account hle hbalance (.inr (updateTiming_eq_ok htiming))
    rw [hgot.run_set hrewarded.identifier] at hset
    cases hset
    rw [hgot.emptys_eq, show a.timing = _ from congrArg Account.timing hgot.account]
    exact .one htokens hrewarded
  | two ft1 ft2 =>
    simp only [OneOrTwo.toList, List.all_cons, List.all_nil, Bool.and_true, Bool.and_eq_true,
      decide_eq_true_eq] at htokens
    obtain ⟨htoken1, htoken2⟩ := htokens
    obtain ⟨⟨action, a, i⟩, l₂, hget, hprocess⟩ := run_bind_eq_ok.1 hprocess
    have hgot := getOrCreate_ok hget
    dsimp only at hprocess
    split at hprocess
    next heq =>
      obtain ⟨total, htotal, hprocess⟩ := orRaise_bind_eq_ok.1 hprocess
      obtain ⟨timing', htiming, hprocess⟩ := orRaise_bind_eq_ok.1 hprocess
      obtain ⟨balance, hbalance, hprocess⟩ := orRaise_bind_eq_ok.1 hprocess
      obtain ⟨_, l₃, hset, hprocess⟩ := run_bind_eq_ok.1 hprocess
      obtain ⟨heq', rfl⟩ := pure_eq_ok.1 hprocess
      cases heq'
      have htotal := Currency.add_eq_some.1 (errorOpt_eq_ok.1 htotal)
      obtain ⟨hle, hbalance⟩ := modifyBalance_eq_ok hbalance
      rw [hgot.creation fee, htotal] at hbalance
      have hrewarded := rewarded_of hgot.account hle hbalance (.inr (updateTiming_eq_ok htiming))
      rw [hgot.run_set hrewarded.identifier] at hset
      cases hset
      rw [hgot.emptys_eq, show a.timing = _ from congrArg Account.timing hgot.account]
      exact .same htoken1 htoken2 heq (htotal ▸ total.isLt) hrewarded
    next hne =>
      obtain ⟨⟨action2, b, j⟩, l₃, hget2, hprocess⟩ := run_bind_eq_ok.1 hprocess
      have hgot2 := getOrCreate_ok hget2
      obtain ⟨balance1, hbalance1, hprocess⟩ := orRaise_bind_eq_ok.1 hprocess
      obtain ⟨timing2, htiming2, hprocess⟩ := orRaise_bind_eq_ok.1 hprocess
      obtain ⟨balance2, hbalance2, hprocess⟩ := orRaise_bind_eq_ok.1 hprocess
      obtain ⟨_, l₄, hset, hprocess⟩ := run_bind_eq_ok.1 hprocess
      obtain ⟨_, l₅, hset2, hprocess⟩ := run_bind_eq_ok.1 hprocess
      obtain ⟨heq', rfl⟩ := pure_eq_ok.1 hprocess
      cases heq'
      have hne' : feeTransferReceiver ft2 ≠ feeTransferReceiver ft1 := Ne.symm hne
      obtain ⟨hb, -, -⟩ := hgot.second hgot2 hne'
      obtain ⟨hemptys2, hcreation2⟩ := hgot.second_state hgot2 hne' fee
      obtain ⟨hle1, hbalance1⟩ := modifyBalance_eq_ok hbalance1
      obtain ⟨hle2, hbalance2⟩ := modifyBalance_eq_ok hbalance2
      rw [hgot.creation fee] at hbalance1
      rw [hcreation2] at hbalance2
      have htiming1 : a.timing = _ := congrArg Account.timing hgot.account
      have hrewarded1 : Rewarded fee slot l.toAccounts (feeTransferReceiver ft1) ft1.fee.val _ :=
        rewarded_of hgot.account hle1 hbalance1 (.inl rfl)
      have hrewarded2 := rewarded_of hb hle2 hbalance2 (.inr (updateTiming_eq_ok htiming2))
      obtain ⟨hrun1, hrun2⟩ := hgot.run_set_two hgot2 hne' hrewarded1.identifier hrewarded2.identifier
      rw [hrun1] at hset
      cases hset
      rw [hrun2] at hset2
      cases hset2
      rw [(hgot.write_two hgot2 hne' (htoken1.trans htoken2.symm) hrewarded1.identifier hrewarded2.identifier).1,
        hgot.emptys_eq, hemptys2, show b.timing = _ from congrArg Account.timing hb]
      exact .two htoken1 htoken2 hne' hrewarded1 htiming1 hrewarded2

/-! ## Coinbases -/

/-- The accounts added, the timing that is recorded and the ledger after. -/
inductive CoinbaseEffect (fee : Fee) (slot : GlobalSlot) (l : PlainLedger F VK) (cb : Coinbase) :
    List AccountId → Timing → PlainLedger F VK → Prop
  | alone {r : Account F VK} (feeTransfer : cb.feeTransfer = none)
      (rewarded : Rewarded fee slot l.toAccounts (coinbaseReceiver cb) cb.amount.val r) :
      CoinbaseEffect fee slot l cb (l.emptys (coinbaseReceiver cb)) (l.account (coinbaseReceiver cb)).timing (l.write r)
  | feeTransfer {ft : CoinbaseFeeTransfer} {t r : Account F VK} (feeTransfer : cb.feeTransfer = some ft)
      (ne : coinbaseReceiver cb ≠ coinbaseFeeReceiver ft) (le : ft.fee.val ≤ cb.amount.val)
      (transferee : Rewarded fee slot l.toAccounts (coinbaseFeeReceiver ft) ft.fee.val t)
      (receiver : Rewarded fee slot l.toAccounts (coinbaseReceiver cb) (cb.amount.val - ft.fee.val) r)
      (timing : r.timing = (l.account (coinbaseReceiver cb)).timing) :
      CoinbaseEffect fee slot l cb (l.emptys (coinbaseFeeReceiver ft) ++ l.emptys (coinbaseReceiver cb))
        (l.account (coinbaseFeeReceiver ft)).timing ((l.write t).write r)

/-- **What a coinbase does.** -/
theorem applyCoinbase_effect {fee : Fee} {slot : GlobalSlot} {cb : Coinbase} {l l' : PlainLedger F VK}
    {u : CoinbaseApplied} (h : (applyCoinbase fee slot cb).run l = (.ok u, l')) :
    u.coinbase = cb ∧ CoinbaseEffect fee slot l cb u.previousEmptyAccounts u.receiverTiming l' := by
  obtain ⟨⟨reward, emptys1, update, timingPrev⟩, l₁, htransferee, h⟩ := run_bind_eq_ok.1 h
  obtain ⟨⟨action2, r, j⟩, l₂, hget, h⟩ := run_bind_eq_ok.1 h
  have hgot := getOrCreate_ok hget
  obtain ⟨⟨timingApplied, timingNew⟩, htiming, h⟩ := orRaise_bind_eq_ok.1 h
  obtain ⟨amount, hamount, h⟩ := orRaise_bind_eq_ok.1 h
  obtain ⟨balance, hbalance, h⟩ := orRaise_bind_eq_ok.1 h
  obtain ⟨_, l₃, hset, h⟩ := run_bind_eq_ok.1 h
  obtain ⟨hle, hbalance⟩ := modifyBalance_eq_ok (bind_eq_ok.2 ⟨amount, hamount, hbalance⟩)
  rw [coinbaseTransferee] at htransferee
  cases hft : cb.feeTransfer with
  | none =>
    rw [hft] at htransferee
    obtain ⟨heq, rfl⟩ := pure_eq_ok.1 htransferee
    cases heq
    obtain ⟨timing', htiming', htiming⟩ := bind_eq_ok.1 htiming
    cases htiming
    rw [hgot.creation fee] at hbalance
    have hrewarded := rewarded_of hgot.account hle hbalance (.inr (updateTiming_eq_ok htiming'))
    rw [hgot.run_set hrewarded.identifier] at hset
    cases hset
    obtain ⟨_, l₄, hunit, h⟩ := run_bind_eq_ok.1 h
    obtain ⟨-, rfl⟩ := pure_eq_ok.1 hunit
    obtain ⟨rfl, rfl⟩ := pure_eq_ok.1 h
    refine ⟨rfl, ?_⟩
    dsimp only
    rw [List.nil_append, hgot.emptys_eq, show r.timing = _ from congrArg Account.timing hgot.account]
    exact .alone hft hrewarded
  | some ft =>
    rw [hft] at htransferee
    obtain ⟨_, hne, htransferee⟩ := orRaise_bind_eq_ok.1 htransferee
    obtain ⟨reward', hreward, htransferee⟩ := orRaise_bind_eq_ok.1 htransferee
    obtain ⟨⟨action, t, i⟩, l₅, hget1, htransferee⟩ := run_bind_eq_ok.1 htransferee
    have hgot1 := getOrCreate_ok hget1
    obtain ⟨timing', htiming', htransferee⟩ := orRaise_bind_eq_ok.1 htransferee
    obtain ⟨amount', hamount', htransferee⟩ := orRaise_bind_eq_ok.1 htransferee
    obtain ⟨balance', hbalance', htransferee⟩ := orRaise_bind_eq_ok.1 htransferee
    obtain ⟨heq, rfl⟩ := pure_eq_ok.1 htransferee
    cases heq
    cases htiming
    have hreward := Currency.sub_eq_some.1 (errorOpt_eq_ok.1 hreward)
    obtain ⟨hle', hbalance'⟩ := modifyBalance_eq_ok (bind_eq_ok.2 ⟨amount', hamount', hbalance'⟩)
    have hne : coinbaseReceiver cb ≠ coinbaseFeeReceiver ft := by
      intro heq
      exact of_decide_eq_true (check_eq_ok.1 hne) (congrArg AccountId.publicKey heq).symm
    obtain ⟨hr, -, hfound⟩ := hgot1.second hgot hne
    obtain ⟨hemptys2, hcreation2⟩ := hgot1.second_state hgot hne fee
    rw [hgot1.creation fee] at hbalance'
    rw [hcreation2] at hbalance
    have hrewarded1 := rewarded_of hgot1.account hle' hbalance' (.inr (updateTiming_eq_ok htiming'))
    have hreward2 : r.balance.val + reward.val = r.balance.val + (cb.amount.val - ft.fee.val) := by omega
    have htiming2 : r.timing = _ := congrArg Account.timing hr
    have hrewarded2 : Rewarded fee slot l.toAccounts (coinbaseReceiver cb) (cb.amount.val - ft.fee.val) _ :=
      rewarded_of hr hle (hbalance.trans hreward2) (.inl rfl)
    rw [PlainLedger.run_set (hrewarded2.identifier ▸ hgot.found)] at hset
    cases hset
    obtain ⟨_, l₆, hset2, h⟩ := run_bind_eq_ok.1 h
    obtain ⟨rfl, rfl⟩ := pure_eq_ok.1 h
    have hfound' : (l₂.write { r with balance, timing := r.timing }).locationOfAccount
        ({ t with balance := balance', timing := timing' } : Account F VK).identifier = some i := by
      rw [hrewarded1.identifier, locationOfAccount_write _ (.inl (by rw [hrewarded2.identifier]; exact hne.symm)), hfound]
    rw [setTransferee, PlainLedger.run_set hfound'] at hset2
    cases hset2
    refine ⟨rfl, ?_⟩
    dsimp only
    rw [(hgot1.write_two hgot hne rfl hrewarded1.identifier hrewarded2.identifier).2, hgot1.emptys_eq, hemptys2,
      show t.timing = _ from congrArg Account.timing hgot1.account]
    exact .feeTransfer hft hne (by omega) hrewarded1 hrewarded2 htiming2

end Mina.TransactionLogic
