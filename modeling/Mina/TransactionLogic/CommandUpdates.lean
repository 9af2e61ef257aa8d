/-
The computations of the transaction logic over a plain ledger, and what each
kind of signed command writes: one lemma for each function, in terms of the
accounts by id (`find` and `account`) before it.
-/
import Mina.TransactionLogic.PlainLedger

namespace Mina.TransactionLogic

open LedgerIntf LedgerM

variable {F VK Hash : Type}

/-! ## Reading and writing -/

/-- The ledger after an account has been written. -/
def PlainLedger.write (l : PlainLedger F VK) (a : Account F VK) : PlainLedger F VK := l.store (l.put a) a.tokenId

section Ledger

variable [ChainHashes F] [LedgerHash F VK Hash]

namespace PlainLedger

theorem getWithLocation_eq (l : PlainLedger F VK) (accountId : AccountId) :
    getWithLocation l accountId = (l.located accountId, l.account accountId) := by
  rw [getWithLocation, show LedgerIntf.locationOfAccount l accountId = l.locationOfAccount accountId from rfl,
    Accounts.located, Accounts.account, Accounts.find]
  cases h : l.locationOfAccount accountId with
  | none => rfl
  | some i =>
    obtain ⟨a, ha, -, -⟩ := Accounts.get_of_locationOfAccount h
    have hget : l.get i = some a := by rw [Accounts.get, ha]; rfl
    dsimp only
    rw [show LedgerIntf.get l i = some a from hget, Option.bind_some, hget]
    rfl

/-- `set` at the location of the account's own id. -/
theorem run_set {l : PlainLedger F VK} {a : Account F VK} {i : Location}
    (h : l.locationOfAccount a.identifier = some i) :
    (set i a : LedgerM (PlainLedger F VK) Unit).run l = (.ok (), l.write a) := by
  rw [write, Accounts.put_of_location h]
  rfl

omit [ChainHashes F] [LedgerHash F VK Hash] in
theorem run_getOrCreateAccount_found {l : PlainLedger F VK} {accountId : AccountId} {i : Location}
    (h : l.locationOfAccount accountId = some i) (a : Account F VK) :
    (PlainLedger.getOrCreateAccount accountId a).run l = (.ok (.existed, i), l) := by
  rw [LedgerM.run, PlainLedger.getOrCreateAccount, h]

omit [ChainHashes F] [LedgerHash F VK Hash] in
theorem run_getOrCreateAccount_new {l : PlainLedger F VK} {accountId : AccountId}
    (h : l.locationOfAccount accountId = none) (a : Account F VK) :
    (PlainLedger.getOrCreateAccount accountId a).run l =
      if l.slots.length = 2 ^ l.depth then (.error (.ledger "Db_error.Out_of_leaves"), l)
      else (.ok (.added, l.slots.length), l.store (l.push a) a.tokenId) := by
  rw [LedgerM.run, PlainLedger.getOrCreateAccount, h]

theorem setWithLocation_ok {l l' : PlainLedger F VK} {a : Account F VK} {location : Located} {u : Unit}
    (hloc : location = l.located a.identifier) (h : (setWithLocation location a).run l = (.ok u, l')) :
    l' = l.write a := by
  subst hloc
  rw [Accounts.located] at h
  cases hi : l.locationOfAccount a.identifier with
  | some i =>
    rw [hi] at h
    dsimp only [setWithLocation] at h
    rw [run_set hi, Prod.mk.injEq] at h
    exact h.2.symm
  | none =>
    rw [hi] at h
    dsimp only [setWithLocation] at h
    obtain ⟨r, l₁, hcreate, h⟩ := run_bind_eq_ok.1 h
    have hl : l₁ = l' := (Prod.mk.inj h).2
    subst hl
    replace hcreate := (run_getOrCreateAccount_new hi a).symm.trans hcreate
    split at hcreate
    next => cases hcreate
    next =>
      cases hcreate
      rw [write, Accounts.put, hi]

/-- The account of the id is there after `get_or_create`, and the others are as
before. -/
structure GotOrCreated (l : PlainLedger F VK) (accountId : AccountId) (action : AccountState) (a : Account F VK)
    (location : Location) (l' : PlainLedger F VK) : Prop where
  account : a = l.account accountId
  added : action = .added ↔ l.find accountId = none
  found : l'.locationOfAccount accountId = some location
  ledger : l' = if l.find accountId = none then l.write a else l

theorem getOrCreate_ok {l l' : PlainLedger F VK} {accountId : AccountId} {action : AccountState} {a : Account F VK}
    {location : Location}
    (h : (LedgerIntf.getOrCreate accountId : LedgerM (PlainLedger F VK) _).run l = (.ok (action, a, location), l')) :
    GotOrCreated l accountId action a location l' := by
  change PlainLedger.getOrCreate accountId l = _ at h
  rw [PlainLedger.getOrCreate] at h
  have hinit : (Account.initialized accountId : Account F VK).identifier = accountId := rfl
  cases hi : l.locationOfAccount accountId with
  | some i =>
    rw [run_getOrCreateAccount_found hi] at h
    dsimp only at h
    obtain ⟨b, hb, hid, -⟩ := Accounts.get_of_locationOfAccount hi
    have hget : l.get i = some b := by rw [Accounts.get, hb]; rfl
    have hfind : l.find accountId = some b := Accounts.find_eq_some.2 ⟨i, hi, hget⟩
    rw [hget] at h
    cases h
    exact ⟨(Accounts.account_of_find hfind).symm, by simp [hfind], hi, by rw [hfind]; simp⟩
  | none =>
    have hfind := Accounts.find_eq_none.2 hi
    rw [run_getOrCreateAccount_new hi] at h
    by_cases hfull : l.slots.length = 2 ^ l.depth
    · rw [if_pos hfull] at h
      cases h
    · rw [if_neg hfull] at h
      dsimp only at h
      have hget : (l.store (l.push (Account.initialized accountId))
          (Account.initialized accountId : Account F VK).tokenId).get l.slots.length =
          some (Account.initialized accountId) := by
        change (l.push (Account.initialized accountId)).get l.slots.length = _
        rw [Accounts.get_push, if_pos rfl]
      rw [hget] at h
      cases h
      refine ⟨by rw [Accounts.account, hfind]; rfl, by simp [hfind], ?_, ?_⟩
      · change (l.push (Account.initialized accountId)).locationOfAccount accountId = _
        rw [Accounts.locationOfAccount_push, hi, Option.none_or, hinit, if_pos rfl]
      · rw [if_pos hfind, write, Accounts.put_of_new (hinit ▸ hfind)]

theorem locate_eq_ok {l : PlainLedger F VK} {tag : String} {accountId : AccountId} {i : Location} {a : Account F VK} :
    locate l tag accountId = .ok (i, a) ↔ l.locationOfAccount accountId = some i ∧ l.find accountId = some a := by
  have hlocate : locate l tag accountId = (errorOpt (tag ++ " location not found") (l.locationOfAccount accountId) >>=
      fun i => errorOpt (tag ++ " account not found") (l.get i) >>= fun a => pure (i, a)) := rfl
  rw [hlocate]
  cases hi : l.locationOfAccount accountId with
  | none =>
    simp only [errorOpt, error, reduceCtorEq, false_and, iff_false]
    intro h
    cases h
  | some j =>
    obtain ⟨b, hb, -, -⟩ := Accounts.get_of_locationOfAccount hi
    have hget : l.get j = some b := by rw [Accounts.get, hb]; rfl
    have hfind : l.find accountId = some b := Accounts.find_eq_some.2 ⟨j, hi, hget⟩
    rw [hfind]
    change (errorOpt _ (l.get j) >>= fun a => pure (j, a) : Except TransactionError (Location × Account F VK)) = _ ↔ _
    rw [hget]
    change (Except.ok (j, b) : Except TransactionError (Location × Account F VK)) = _ ↔ _
    simp

end PlainLedger

end Ledger

/-! ## The checks -/

theorem mapError_eq_ok {ε ε' α : Type} {f : ε → ε'} {x : Except ε α} {a : α} : x.mapError f = .ok a ↔ x = .ok a := by
  cases x <;> simp [Except.mapError]

theorem check_eq_ok {b : Bool} {e : TransactionError} {u : Unit} : check b e = .ok u ↔ b = true := by
  cases b <;> simp [check]

theorem errorOpt_eq_ok {α : Type} {e : String} {x : Option α} {a : α} : errorOpt e x = .ok a ↔ x = some a := by
  cases x <;> simp [errorOpt, error]

theorem addAmount_eq_ok {b : Balance} {m : Amount} {c : Balance} :
    addAmount b m = .ok c ↔ c.val = b.val + m.val := by rw [addAmount, errorOpt_eq_ok, Currency.add_eq_some]

theorem subAmount_eq_ok {b : Balance} {m : Amount} {c : Balance} :
    subAmount b m = .ok c ↔ c.val + m.val = b.val := by
  rw [subAmount, errorOpt_eq_ok, Currency.sub_eq_some]
  omega

theorem subAccountCreationFee_eq_ok {fee : Fee} {action : AccountState} {m c : Amount} :
    subAccountCreationFee fee action m = .ok c ↔ c.val + (if action = .added then fee.val else 0) = m.val := by
  rw [subAccountCreationFee]
  cases action with
  | added =>
    rw [if_pos rfl, if_pos rfl]
    cases h : Currency.sub m fee with
    | none =>
      have := Currency.sub_eq_none.1 h
      simp only [reduceCtorEq, false_iff]
      omega
    | some d =>
      have := Currency.sub_eq_some.1 h
      rw [Except.ok.injEq, Fin.ext_iff]
      omega
  | existed =>
    rw [if_neg (by decide), if_neg (by decide), Except.ok.injEq, Fin.ext_iff]
    omega

theorem orFail_eq_ok {α : Type} {x : Except Failure α} {a : α} : orFail x = .ok a ↔ x = .ok a := mapError_eq_ok

theorem orReject_eq_ok {α : Type} {x : Except TransactionError α} {a : α} : orReject x = .ok a ↔ x = .ok a :=
  mapError_eq_ok

theorem checkExists_eq_ok {t : Located} {f : Failure} {u : Unit} : checkExists t f = .ok u ↔ t ≠ .new := by
  rw [checkExists]
  split <;> simp_all [fail]

theorem rejectFailure_eq_ok {α : Type} {b : Bool} {x : Except Stop α} {a : α} :
    rejectFailure b x = .ok a ↔ x = .ok a := by
  cases x with
  | ok b => rw [rejectFailure]; simp
  | error e => cases e <;> simp [rejectFailure]

/-- A deduction whose timing is valid is covered by the balance. -/
theorem le_of_validateTiming {a : Account F VK} {m : Amount} {slot : GlobalSlot} {t : Timing}
    (h : validateTiming a m slot = .ok t) : m.val ≤ a.balance.val := by
  rw [validateTiming] at h
  split at h
  next hmin =>
    have := (validateTimingWithMinBalance_ok hmin).2.1
    omega
  next => cases h

/-- The balance covers the minimum balance of the account. -/
def Covered (slot : GlobalSlot) (a : Account F VK) : Prop := (a.minBalance slot).val ≤ a.balance.val

/-- An account whose deduction has been validated is covered. -/
theorem covered_of_validateTiming {a b : Account F VK} {m : Amount} {slot : GlobalSlot}
    (h : validateTiming a m slot = .ok b.timing) (hbalance : a.balance.val ≤ b.balance.val + m.val) :
    Covered slot b := by
  rw [validateTiming] at h
  split at h
  next timing minBalance hmin =>
    cases h
    obtain ⟨rfl, hle, htiming⟩ := validateTimingWithMinBalance_ok hmin
    have hmin' : (b.minBalance slot).val ≤ (a.minBalance slot).val := by
      by_cases hpos : 0 < a.minBalance slot
      · rw [if_pos hpos] at htiming
        rw [Account.minBalance, htiming, ← Account.minBalance]
      · rw [if_neg hpos] at htiming
        rw [Account.minBalance, htiming]
        exact Nat.zero_le _
    rw [Covered]
    omega
  next => cases h

/-- The minimum balance never increases. -/
theorem Covered.later {slot slot' : GlobalSlot} {a : Account F VK} (h : Covered slot a) (hle : slot ≤ slot') :
    Covered slot' a := by
  rw [Covered, Account.minBalance] at h ⊢
  cases htiming : a.timing with
  | untimed => exact Nat.zero_le _
  | timed t =>
    rw [htiming] at h
    exact Nat.le_trans (Fin.le_def.1 (Account.incrementalBalanceBetweenSlots_eq t hle).1) h

/-- So is one whose balance has not decreased. -/
theorem Covered.mono {slot : GlobalSlot} {a b : Account F VK} (h : Covered slot a) (htiming : b.timing = a.timing)
    (hbalance : a.balance.val ≤ b.balance.val) : Covered slot b := by
  rw [Covered, Account.minBalance] at h ⊢
  rw [htiming]
  omega

theorem incrBalance_eq_ok {a b : Account F VK} {m : Amount} (h : incrBalance a m = .ok b) :
    b = { a with balance := b.balance } ∧ b.balance.val = a.balance.val + m.val := by
  rw [incrBalance] at h
  split at h
  next balance hadd =>
    cases h
    exact ⟨rfl, addAmount_eq_ok.1 hadd⟩
  next => cases h

theorem chargeAccountCreationFeeExn_eq_ok {fee : Fee} {slot : GlobalSlot} {a b : Account F VK}
    (h : chargeAccountCreationFeeExn fee slot a = .ok b) :
    b = { a with balance := b.balance, timing := b.timing } ∧ b.balance.val + fee.val = a.balance.val ∧
      Covered slot b := by
  rw [chargeAccountCreationFeeExn] at h
  split at h
  next => cases h
  next balance hsub =>
    obtain ⟨timing, htiming, h⟩ := bind_eq_ok.1 h
    cases h
    have := Currency.sub_eq_some.1 hsub
    refine ⟨rfl, ?_, covered_of_validateTiming (mapError_eq_ok.1 htiming) (Nat.le_add_right _ _)⟩
    dsimp only
    omega

/-! ## What a command writes -/

/-- The fee for the creation of an account that is not there. -/
def creationFee (fee : Fee) (l : Accounts F VK) (accountId : AccountId) : Nat :=
  if l.find accountId = none then fee.val else 0

theorem creationFee_of_found {fee : Fee} {l : Accounts F VK} {accountId : AccountId} (h : l.find accountId ≠ none) :
    creationFee fee l accountId = 0 := if_neg h

variable [ChainHashes F] [LedgerHash F VK Hash]

/-- The fee payer before and after the fee is charged. -/
structure Charged (slot : GlobalSlot) (c : SignedCommand) (a a' : Account F VK) : Prop where
  account : a' = { a with
    balance := a'.balance
    nonce := c.nonce.succ
    receiptChainHash := ChainHashes.receiptChainCons c.payload a.receiptChainHash
    timing := a'.timing }
  nonce : a.nonce = c.nonce
  balance : a'.balance.val + c.fee.val = a.balance.val
  timing : validateTiming a c.fee slot = .ok a'.timing
  user : a.snapp = none
  token : c.feeToken = TokenId.default
  signer : c.feePayerPk = c.signer

theorem payFee_ok {l : PlainLedger F VK} {c : SignedCommand} {slot : GlobalSlot} {loc : Located} {a' : Account F VK}
    {common : Common F} (h : payFee c c.signer l slot = .ok (loc, a', common)) :
    loc = l.located c.feePayer ∧ ∃ a, l.find c.feePayer = some a ∧ Charged slot c a a' ∧
      common = {
        userCommand := ⟨c, .applied .empty .empty⟩
        previousReceiptChainHash := a.receiptChainHash
        feePayerTiming := a.timing
        sourceTiming := none } := by
  obtain ⟨_, hsigner, h⟩ := bind_eq_ok.1 h
  obtain ⟨_, htoken, h⟩ := bind_eq_ok.1 h
  obtain ⟨⟨loc', account, account'⟩, hpay, h⟩ := bind_eq_ok.1 h
  cases h
  obtain ⟨⟨location, a⟩, hget, hpay⟩ := bind_eq_ok.1 hpay
  obtain ⟨_, hexists, hpay⟩ := bind_eq_ok.1 hpay
  obtain ⟨balance, hbalance, hpay⟩ := bind_eq_ok.1 hpay
  obtain ⟨_, hnonce, hpay⟩ := bind_eq_ok.1 hpay
  obtain ⟨timing, htiming, hpay⟩ := bind_eq_ok.1 hpay
  cases hpay
  rw [getUserAccountWithLocation, PlainLedger.getWithLocation_eq] at hget
  obtain ⟨_, hsnapp, hget⟩ := bind_eq_ok.1 hget
  cases hget
  have hne : l.find c.feePayer ≠ none := by
    rw [check_eq_ok, decide_eq_true_eq] at hexists
    exact fun hnone => hexists (Accounts.located_eq_new.2 hnone)
  obtain ⟨a, ha⟩ := Option.ne_none_iff_exists'.1 hne
  have hacc := Accounts.account_of_find ha
  rw [hacc] at hbalance hnonce htiming hsnapp ⊢
  have hn : a.nonce = c.nonce := of_decide_eq_true (check_eq_ok.1 hnonce)
  refine ⟨rfl, a, ha, ⟨by rw [← hn], hn, subAmount_eq_ok.1 hbalance, mapError_eq_ok.1 htiming,
    Option.isNone_iff_eq_none.1 (check_eq_ok.1 hsnapp), of_decide_eq_true (check_eq_ok.1 htoken),
    of_decide_eq_true (check_eq_ok.1 hsigner)⟩, rfl⟩

/-- The receiver and the source after a payment. -/
structure Paid (fee : Fee) (slot : GlobalSlot) (l : Accounts F VK) (source receiver : AccountId) (amount : Amount)
    (r s : Account F VK) : Prop where
  found : l.find source ≠ none
  enough : amount.val ≤ (l.account source).balance.val
  receiverAfter : r = { l.account receiver with balance := r.balance }
  received : r.balance.val + creationFee fee l receiver = (l.account receiver).balance.val + amount.val
  token : l.find receiver = none → receiver.tokenId = TokenId.default
  sourceAfter : s = if source = receiver then { l.account source with timing := s.timing }
    else { l.account source with balance := s.balance, timing := s.timing }
  paid : source ≠ receiver → s.balance.val + amount.val = (l.account source).balance.val
  covered : Covered slot s

theorem paymentSource_ok {l : PlainLedger F VK} {slot : GlobalSlot} {source receiver : AccountId} {amount : Amount}
    {loc : Located} {t : Timing} {s : Account F VK}
    (h : paymentSource l slot source receiver amount = .ok (loc, t, s)) :
    loc = l.located source ∧ t = (l.account source).timing ∧ l.find source ≠ none ∧
      amount.val ≤ (l.account source).balance.val ∧
      (s = if source = receiver then { l.account source with timing := s.timing }
        else { l.account source with balance := s.balance, timing := s.timing }) ∧
      (source ≠ receiver → s.balance.val + amount.val = (l.account source).balance.val) ∧ Covered slot s := by
  rw [paymentSource] at h
  split at h
  next heq =>
    subst heq
    rw [PlainLedger.getWithLocation_eq] at h
    obtain ⟨_, hexists, h⟩ := bind_eq_ok.1 h
    obtain ⟨timing, htiming, h⟩ := bind_eq_ok.1 h
    cases h
    have htiming := mapError_eq_ok.1 (orFail_eq_ok.1 htiming)
    exact ⟨rfl, rfl, fun hnone => checkExists_eq_ok.1 hexists (Accounts.located_eq_new.2 hnone),
      le_of_validateTiming htiming, by rw [if_pos rfl], fun hne => absurd rfl hne,
      covered_of_validateTiming htiming (Nat.le_add_right _ _)⟩
  next hne =>
    rw [PlainLedger.getWithLocation_eq] at h
    obtain ⟨_, hexists, h⟩ := bind_eq_ok.1 h
    obtain ⟨timing, htiming, h⟩ := bind_eq_ok.1 h
    obtain ⟨balance, hbalance, h⟩ := bind_eq_ok.1 h
    cases h
    have hsub := subAmount_eq_ok.1 (mapError_eq_ok.1 (orFail_eq_ok.1 hbalance))
    exact ⟨rfl, rfl, fun hnone => checkExists_eq_ok.1 hexists (Accounts.located_eq_new.2 hnone), by omega,
      by rw [if_neg hne], fun _ => hsub,
      covered_of_validateTiming (mapError_eq_ok.1 (orFail_eq_ok.1 htiming)) hsub.ge⟩

omit [ChainHashes F] [LedgerHash F VK Hash] in
theorem receiverAmount_ok {fee : Fee} {l : Accounts F VK} {receiver : AccountId} {amount m : Amount}
    (h : receiverAmount fee (l.located receiver) receiver.tokenId amount = .ok m) :
    m.val + creationFee fee l receiver = amount.val ∧
      (l.find receiver = none → receiver.tokenId = TokenId.default) := by
  rw [creationFee]
  cases hloc : l.located receiver with
  | existing i =>
    have hne : l.find receiver ≠ none := fun hnone => by
      rw [Accounts.located_eq_new.2 hnone] at hloc
      cases hloc
    rw [hloc] at h
    cases h
    rw [if_neg hne]
    exact ⟨rfl, fun hnone => absurd hnone hne⟩
  | new =>
    have hnone := Accounts.located_eq_new.1 hloc
    rw [hloc, receiverAmount] at h
    rw [if_pos hnone]
    split at h
    next htoken =>
      have := subAccountCreationFee_eq_ok.1 (mapError_eq_ok.1 (orFail_eq_ok.1 h))
      rw [if_pos rfl] at this
      exact ⟨this, fun _ => htoken⟩
    next => cases h

theorem paymentUpdates_ok {fee : Fee} {l : PlainLedger F VK} {slot : GlobalSlot}
    {feePayer source receiver : AccountId} {amount : Amount} {u : Updates F VK}
    (h : paymentUpdates fee l slot feePayer source receiver amount receiver.tokenId = .ok u) :
    ∃ r s, u.locatedAccounts = [(l.located receiver, r), (l.located source, s)] ∧
      Paid fee slot l.toAccounts source receiver amount r s ∧ u.sourceTiming = (l.account source).timing ∧
      u.body = .payment (if l.find receiver = none then [receiver] else []) := by
  rw [paymentUpdates, PlainLedger.getWithLocation_eq] at h
  obtain ⟨⟨loc, t, s⟩, hsource, h⟩ := bind_eq_ok.1 h
  obtain ⟨m, hm, h⟩ := bind_eq_ok.1 h
  obtain ⟨r, hr, h⟩ := bind_eq_ok.1 h
  obtain ⟨rfl, rfl, hfound, henough, hs, hpaid, hcovered⟩ := paymentSource_ok (rejectFailure_eq_ok.1 hsource)
  obtain ⟨hcreation, htoken⟩ := receiverAmount_ok hm
  obtain ⟨hacc, hbalance⟩ := incrBalance_eq_ok (orFail_eq_ok.1 hr)
  refine ⟨r, s, ?_, ⟨hfound, henough, hacc, by omega, htoken, hs, hpaid, hcovered⟩, ?_, ?_⟩
  · cases hloc : l.located receiver <;> rw [hloc] at h <;> cases h <;> rfl
  · cases hloc : l.located receiver <;> rw [hloc] at h <;> cases h <;> rfl
  · cases hloc : l.located receiver with
    | existing i =>
      have hne : l.find receiver ≠ none := fun hnone => by
        rw [Accounts.located_eq_new.2 hnone] at hloc
        cases hloc
      rw [hloc] at h
      cases h
      rw [if_neg hne]
    | new =>
      have hnone := Accounts.located_eq_new.1 hloc
      rw [hloc] at h
      cases h
      rw [if_pos hnone]

theorem stakeDelegationUpdates_ok {l : PlainLedger F VK} {slot : GlobalSlot} {source receiver : AccountId}
    {u : Updates F VK} (h : stakeDelegationUpdates l slot source receiver = .ok u) :
    ∃ s, u.locatedAccounts = [(l.located source, s)] ∧ l.find source ≠ none ∧
      s = { l.account source with delegate := s.delegate, timing := s.timing } ∧
      Covered slot s ∧ u.sourceTiming = (l.account source).timing ∧
      u.body = .stakeDelegation (l.account source).delegate := by
  rw [stakeDelegationUpdates, PlainLedger.getWithLocation_eq, PlainLedger.getWithLocation_eq] at h
  obtain ⟨_, hsource, h⟩ := bind_eq_ok.1 h
  obtain ⟨_, -, h⟩ := bind_eq_ok.1 h
  obtain ⟨timing, htiming, h⟩ := bind_eq_ok.1 h
  cases h
  exact ⟨_, rfl, fun hnone => checkExists_eq_ok.1 hsource (Accounts.located_eq_new.2 hnone), rfl,
    covered_of_validateTiming (mapError_eq_ok.1 (orFail_eq_ok.1 htiming)) (Nat.le_add_right _ _), rfl, rfl⟩

theorem createNewTokenUpdates_ok {fee : Fee} {l : PlainLedger F VK} {slot : GlobalSlot} {loc : Located}
    {a : Account F VK} {token : TokenId} {receiver : AccountId} {disable : Bool} {u : Updates F VK}
    (h : createNewTokenUpdates fee l slot loc a token receiver disable = .ok u) :
    ∃ a' r, u.locatedAccounts = [(loc, a'), (l.located receiver, r)] ∧
      a' = { a with balance := a'.balance, timing := a'.timing } ∧ a'.balance.val + fee.val = a.balance.val ∧
      Covered slot a' ∧ l.find receiver = none ∧ r = { l.account receiver with tokenPermissions := r.tokenPermissions } ∧
      u.sourceTiming = r.timing ∧ u.body = .createNewToken token := by
  rw [createNewTokenUpdates, PlainLedger.getWithLocation_eq] at h
  obtain ⟨a', ha', h⟩ := bind_eq_ok.1 h
  obtain ⟨hacc, hbalance, hcovered⟩ := chargeAccountCreationFeeExn_eq_ok (orReject_eq_ok.1 ha')
  dsimp only at h
  split at h
  next => cases h
  next hnew =>
    cases h
    rw [ne_eq, not_not] at hnew
    exact ⟨a', _, rfl, hacc, hbalance, hcovered, Accounts.located_eq_new.1 hnew, rfl, rfl, rfl⟩

/-- The accounts after the creation of a token account: the fee payer `f`, the
new account `r` and the owner `s` of its token. -/
structure AccountCreated (fee : Fee) (slot : GlobalSlot) (l : Accounts F VK) (feePayer source receiver : AccountId)
    (a f r s : Account F VK) : Prop where
  feePayerAfter : f = { a with balance := f.balance, timing := f.timing }
  charged : f.balance.val + fee.val = a.balance.val
  new : l.find receiver = none
  receiverAfter : r = { l.account receiver with tokenPermissions := r.tokenPermissions }
  sourceAfter : s = { (if source = receiver then r else if source = feePayer then f else l.account source) with
    timing := s.timing }
  found : source ≠ receiver → source ≠ feePayer → l.find source ≠ none
  token : source = receiver → receiver.tokenId = TokenId.default
  coveredFeePayer : Covered slot f
  coveredSource : Covered slot s

theorem tokenAccountSource_ok {l : PlainLedger F VK} {feePayer source receiver : AccountId} {f r b : Account F VK}
    {loc : Located} (h : tokenAccountSource l feePayer source receiver f r = .ok (loc, b)) :
    loc = l.located source ∧
      b = (if source = receiver then r else if source = feePayer then f else l.account source) ∧
      (source ≠ receiver → source ≠ feePayer → l.find source ≠ none) := by
  rw [tokenAccountSource, PlainLedger.getWithLocation_eq] at h
  dsimp only at h
  by_cases hsr : source = receiver
  · rw [if_pos hsr] at h
    cases h
    exact ⟨rfl, (if_pos hsr).symm, fun hne => absurd hsr hne⟩
  · rw [if_neg hsr] at h
    rw [if_neg hsr]
    by_cases hsf : source = feePayer
    · rw [if_pos hsf] at h
      cases h
      exact ⟨rfl, (if_pos hsf).symm, fun _ hne => absurd hsf hne⟩
    · rw [if_neg hsf] at h
      obtain ⟨_, hexists, h⟩ := bind_eq_ok.1 h
      cases h
      exact ⟨rfl, (if_neg hsf).symm, fun _ _ hnone =>
        checkExists_eq_ok.1 hexists (Accounts.located_eq_new.2 hnone)⟩

theorem createTokenAccountUpdates_ok {fee : Fee} {l : PlainLedger F VK} {slot : GlobalSlot}
    {feePayer source receiver : AccountId} {loc : Located} {a : Account F VK} {predicatePassed disabled : Bool}
    {u : Updates F VK}
    (h : createTokenAccountUpdates fee l slot feePayer source receiver loc a predicatePassed disabled = .ok u) :
    ∃ f r s, AccountCreated fee slot l.toAccounts feePayer source receiver a f r s ∧
      u.locatedAccounts = (if source = receiver then [(loc, f), (l.located source, s)]
        else [(l.located receiver, r), (loc, f), (l.located source, s)]) ∧
      u.sourceTiming = (if source = receiver then r else if source = feePayer then f
        else l.account source).timing ∧
      u.body = .createTokenAccount := by
  rw [createTokenAccountUpdates, PlainLedger.getWithLocation_eq] at h
  split at h
  next => cases h
  next =>
    obtain ⟨f, hf, h⟩ := bind_eq_ok.1 h
    obtain ⟨hfacc, hfbalance, hfcovered⟩ := chargeAccountCreationFeeExn_eq_ok (orReject_eq_ok.1 hf)
    dsimp only at h
    split at h
    next => cases h
    next hnew =>
      rw [ne_eq, not_not] at hnew
      obtain ⟨⟨loc', b⟩, hsource, h⟩ := bind_eq_ok.1 h
      obtain ⟨_, hpermissions, h⟩ := bind_eq_ok.1 h
      obtain ⟨timing, htiming, h⟩ := bind_eq_ok.1 h
      have htiming := mapError_eq_ok.1 (orFail_eq_ok.1 htiming)
      have hcovered : Covered slot { b with timing } := covered_of_validateTiming htiming (Nat.le_add_right _ _)
      cases h
      obtain ⟨rfl, hb, hfound⟩ := tokenAccountSource_ok hsource
      refine ⟨f, _, _, ⟨hfacc, hfbalance, Accounts.located_eq_new.1 hnew, rfl, ?_, hfound, fun hsr => ?_, hfcovered,
        hcovered⟩, rfl, ?_, rfl⟩
      · rw [← hb]
      · -- A new account does not own its token.
        rw [if_pos hsr] at hb
        subst hb
        dsimp only [checkTokenPermissions] at hpermissions
        by_contra hne
        rw [if_neg hne] at hpermissions
        cases hpermissions
      · rw [← hb]

/-- The receiver and the owner of the token after tokens are minted. -/
structure Minted (slot : GlobalSlot) (l : Accounts F VK) (source receiver : AccountId) (amount : Amount)
    (r s : Account F VK) : Prop where
  receiverFound : l.find receiver ≠ none
  sourceFound : l.find source ≠ none
  receiverAfter : r = { l.account receiver with balance := r.balance }
  received : r.balance.val = (l.account receiver).balance.val + amount.val
  sourceAfter : s = { (if source = receiver then r else l.account source) with timing := s.timing }
  covered : Covered slot s

theorem mintTokensUpdates_ok {l : PlainLedger F VK} {slot : GlobalSlot} {source receiver : AccountId} {token : TokenId}
    {amount : Amount} {u : Updates F VK} (h : mintTokensUpdates l slot source receiver token amount = .ok u) :
    ∃ r s, u.locatedAccounts = [(l.located receiver, r), (l.located source, s)] ∧
      Minted slot l.toAccounts source receiver amount r s ∧ u.sourceTiming = (l.account source).timing ∧
      u.body = .mintTokens ∧ token ≠ TokenId.default := by
  rw [mintTokensUpdates, PlainLedger.getWithLocation_eq, PlainLedger.getWithLocation_eq] at h
  split at h
  next => cases h
  next htoken =>
    obtain ⟨_, hreceiver, h⟩ := bind_eq_ok.1 h
    obtain ⟨r, hr, h⟩ := bind_eq_ok.1 h
    obtain ⟨hacc, hbalance⟩ := incrBalance_eq_ok (orFail_eq_ok.1 hr)
    have hfound : l.find receiver ≠ none := fun hnone =>
      checkExists_eq_ok.1 hreceiver (Accounts.located_eq_new.2 hnone)
    by_cases hsr : source = receiver
    · rw [if_pos hsr] at h
      obtain ⟨_, -, h⟩ := bind_eq_ok.1 h
      obtain ⟨_, -, h⟩ := bind_eq_ok.1 h
      obtain ⟨timing, htiming, h⟩ := bind_eq_ok.1 h
      have hcovered := mapError_eq_ok.1 (orFail_eq_ok.1 htiming)
      cases h
      subst hsr
      refine ⟨r, { r with timing }, rfl, ⟨hfound, hfound, hacc, hbalance, by rw [if_pos rfl],
        covered_of_validateTiming hcovered (Nat.le_add_right _ _)⟩, ?_, rfl, htoken⟩
      rw [hacc]
    · rw [if_neg hsr] at h
      obtain ⟨_, hexists, h⟩ := bind_eq_ok.1 h
      obtain ⟨_, -, h⟩ := bind_eq_ok.1 h
      obtain ⟨timing, htiming, h⟩ := bind_eq_ok.1 h
      have hcovered := mapError_eq_ok.1 (orFail_eq_ok.1 htiming)
      cases h
      exact ⟨r, _, rfl, ⟨hfound, fun hnone => checkExists_eq_ok.1 hexists (Accounts.located_eq_new.2 hnone), hacc,
        hbalance, by rw [if_neg hsr], covered_of_validateTiming hcovered (Nat.le_add_right _ _)⟩, rfl, rfl, htoken⟩

end Mina.TransactionLogic
