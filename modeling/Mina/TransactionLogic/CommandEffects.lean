/-
What a signed command does to a plain ledger: the fee payer is charged, and
then either nothing else happens or the command's own accounts are written
(`CommandEffect`). The results about commands are by cases on it.
-/
import Mina.TransactionLogic.CommandUpdates

namespace Mina.TransactionLogic

open LedgerIntf LedgerM

variable {F VK Hash : Type}

/-! ## Reads after a write -/

namespace PlainLedger

theorem find_write (l : PlainLedger F VK) (a : Account F VK) (accountId : AccountId) :
    (l.write a).find accountId = if accountId = a.identifier then some a else l.find accountId :=
  Accounts.find_put l.toAccounts a accountId

theorem account_write [ChainHashes F] (l : PlainLedger F VK) (a : Account F VK) (accountId : AccountId) :
    (l.write a).account accountId = if accountId = a.identifier then a else l.account accountId := by
  rw [Accounts.account, find_write]
  split
  · rfl
  · rfl

theorem located_write {l : PlainLedger F VK} (a : Account F VK) {accountId : AccountId}
    (h : accountId ≠ a.identifier ∨ l.find a.identifier ≠ none) :
    (l.write a).located accountId = l.located accountId := by
  have hput : (l.put a).locationOfAccount accountId = l.locationOfAccount accountId :=
    Accounts.locationOfAccount_put a (h.imp_right Option.isSome_iff_ne_none.2)
  change (l.put a).located accountId = _
  rw [Accounts.located, hput, Accounts.located]

variable [ChainHashes F] [LedgerHash F VK Hash]

/-- Two accounts written in order, at the locations they had before. -/
theorem setLocatedAccounts_two {l l' : PlainLedger F VK} {a b : Account F VK} {la lb : Located}
    (ha : la = l.located a.identifier) (hb : lb = l.located b.identifier)
    (hne : b.identifier ≠ a.identifier ∨ l.find a.identifier ≠ none)
    (h : (setLocatedAccounts [(la, a), (lb, b)]).run l = (.ok (), l')) : l' = (l.write a).write b := by
  obtain ⟨_, l₁, h₁, h⟩ := run_bind_eq_ok.1 h
  have hl₁ := setWithLocation_ok ha h₁
  subst hl₁
  obtain ⟨_, l₂, h₂, h⟩ := run_bind_eq_ok.1 h
  have hl₂ := setWithLocation_ok (hb.trans (located_write a hne).symm) h₂
  rw [← hl₂]
  exact (Prod.mk.inj h).2.symm

end PlainLedger

/-! ## Effects -/

variable [ChainHashes F] [LedgerHash F VK Hash]

/-- The body of what is applied, the timing of the source before and the ledger
after, for the ledger `l` with the fee payer charged to `a`. -/
inductive CommandEffect (fee : Fee) (slot : GlobalSlot) (c : SignedCommand) (l : PlainLedger F VK) (a : Account F VK) :
    AppliedBody → Option Timing → PlainLedger F VK → Prop
  | failed : CommandEffect fee slot c l a .failed none l
  | stakeDelegation {delegator newDelegate : PublicKey} {source : AccountId} {s : Account F VK}
      (body : c.payload.body = .stakeDelegation delegator newDelegate)
      (sourceEq : source = ⟨delegator, TokenId.default⟩)
      (found : l.find source ≠ none)
      (sourceAfter : s = { l.account source with delegate := s.delegate, timing := s.timing })
      (covered : Covered slot s) (signed : c.feePayerPk = c.sourcePk) :
      CommandEffect fee slot c l a (.stakeDelegation (l.account source).delegate) (some (l.account source).timing)
        (l.write s)
  | payment {p : PaymentPayload} {source receiver : AccountId} {r s : Account F VK}
      (body : c.payload.body = .payment p)
      (sourceEq : source = ⟨p.sourcePk, p.tokenId⟩) (receiverEq : receiver = ⟨p.receiverPk, p.tokenId⟩)
      (paid : Paid fee slot l.toAccounts source receiver p.amount r s) (signed : c.feePayerPk = c.sourcePk) :
      CommandEffect fee slot c l a (.payment (if l.find receiver = none then [receiver] else []))
        (some (l.account source).timing) ((l.write r).write s)
  | createNewToken {p : NewTokenPayload} {receiver : AccountId} {f r : Account F VK}
      (body : c.payload.body = .createNewToken p)
      (receiverEq : receiver = ⟨p.tokenOwnerPk, l.nextAvailableToken⟩)
      (feePayerAfter : f = { a with balance := f.balance, timing := f.timing })
      (charged : f.balance.val + fee.val = a.balance.val) (covered : Covered slot f)
      (new : l.find receiver = none)
      (receiverAfter : r = { l.account receiver with tokenPermissions := r.tokenPermissions }) :
      CommandEffect fee slot c l a (.createNewToken l.nextAvailableToken) (some r.timing) ((l.write f).write r)
  | createTokenAccount {p : NewAccountPayload} {source receiver : AccountId} {f r s : Account F VK}
      (body : c.payload.body = .createTokenAccount p)
      (sourceEq : source = ⟨p.tokenOwnerPk, p.tokenId⟩) (receiverEq : receiver = ⟨p.receiverPk, p.tokenId⟩)
      (created : AccountCreated fee slot l.toAccounts c.feePayer source receiver a f r s) :
      CommandEffect fee slot c l a .createTokenAccount
        (some (if source = receiver then r else if source = c.feePayer then f else l.account source).timing)
        (if source = receiver then (l.write f).write s else ((l.write r).write f).write s)
  | mintTokens {p : MintingPayload} {source receiver : AccountId} {r s : Account F VK}
      (body : c.payload.body = .mintTokens p)
      (sourceEq : source = ⟨p.tokenOwnerPk, p.tokenId⟩) (receiverEq : receiver = ⟨p.receiverPk, p.tokenId⟩)
      (token : p.tokenId ≠ TokenId.default)
      (minted : Minted slot l.toAccounts source receiver p.amount r s) (signed : c.feePayerPk = c.sourcePk) :
      CommandEffect fee slot c l a .mintTokens (some (l.account source).timing) ((l.write r).write s)

theorem Charged.identifier {slot : GlobalSlot} {c : SignedCommand} {a a' : Account F VK} (h : Charged slot c a a') :
    a'.identifier = a.identifier := by rw [h.account]; rfl

namespace Paid

variable {fee : Fee} {slot : GlobalSlot} {l : Accounts F VK} {source receiver : AccountId} {amount : Amount} {r s : Account F VK}

theorem identifier_receiver (h : Paid fee slot l source receiver amount r s) : r.identifier = receiver := by
  rw [h.receiverAfter]
  exact Accounts.identifier_account l receiver

theorem identifier_source (h : Paid fee slot l source receiver amount r s) : s.identifier = source := by
  have hs := h.sourceAfter
  split at hs <;> rw [hs] <;> exact Accounts.identifier_account l source

end Paid

namespace AccountCreated

variable {fee : Fee} {slot : GlobalSlot} {l : Accounts F VK} {feePayer source receiver : AccountId} {a f r s : Account F VK}

theorem identifier_feePayer (h : AccountCreated fee slot l feePayer source receiver a f r s) :
    f.identifier = a.identifier := by rw [h.feePayerAfter]; rfl

theorem identifier_receiver (h : AccountCreated fee slot l feePayer source receiver a f r s) :
    r.identifier = receiver := by
  rw [h.receiverAfter]
  exact Accounts.identifier_account l receiver

theorem identifier_source (h : AccountCreated fee slot l feePayer source receiver a f r s)
    (ha : a.identifier = feePayer) : s.identifier = source := by
  rw [h.sourceAfter]
  change (if source = receiver then r else if source = feePayer then f else l.account source).identifier = source
  split
  next heq => rw [h.identifier_receiver, heq]
  next =>
    split
    next heq => rw [h.identifier_feePayer, ha, heq]
    next => exact Accounts.identifier_account l source

end AccountCreated

namespace Minted

variable {slot : GlobalSlot} {l : Accounts F VK} {source receiver : AccountId} {amount : Amount} {r s : Account F VK}

theorem identifier_receiver (h : Minted slot l source receiver amount r s) : r.identifier = receiver := by
  rw [h.receiverAfter]
  exact Accounts.identifier_account l receiver

theorem identifier_source (h : Minted slot l source receiver amount r s) : s.identifier = source := by
  rw [h.sourceAfter]
  change (if source = receiver then r else l.account source).identifier = source
  split
  next heq => rw [h.identifier_receiver, heq]
  next => exact Accounts.identifier_account l source

end Minted

/-- The commands whose source has to be their fee payer. -/
def needsSource : Body → Bool
  | .payment _ | .stakeDelegation .. | .mintTokens _ => true
  | .createNewToken _ | .createTokenAccount _ => false

theorem signed_of_predicatePassed {c : SignedCommand} {passed : Bool} (h : predicatePassed c = .ok passed)
    (hbody : needsSource c.payload.body = true) : c.feePayerPk = c.sourcePk := by
  rw [predicatePassed] at h
  split at h
  next heq => exact heq
  next =>
    cases hb : c.payload.body <;> rw [hb] at h hbody <;> cases h
    all_goals cases hbody

open PlainLedger in
/-- The updates of a command, written to the ledger that the fee was charged
on. -/
theorem computeUpdates_effect {fee : Fee} {slot : GlobalSlot} {c : SignedCommand} {l l' : PlainLedger F VK}
    {a : Account F VK} {u : Updates F VK} (ha : a.identifier = c.feePayer) (hfound : l.find c.feePayer ≠ none)
    (h : computeUpdates fee slot l c (l.located c.feePayer) a = .ok u)
    (hset : (setLocatedAccounts u.locatedAccounts).run l = (.ok (), l')) :
    CommandEffect fee slot c l a u.body (some u.sourceTiming) l' := by
  obtain ⟨passed, hpassed, h⟩ := bind_eq_ok.1 h
  cases hbody : c.payload.body with
  | stakeDelegation delegator newDelegate =>
    simp only [hbody, SignedCommand.source, SignedCommand.receiver, Body.source, Body.receiver] at h
    obtain ⟨s, hl, hs, hafter, hcovered, htiming, hb⟩ := stakeDelegationUpdates_ok h
    rw [hl] at hset
    obtain ⟨_, l₁, h₁, hset⟩ := run_bind_eq_ok.1 hset
    have hid : s.identifier = ⟨delegator, TokenId.default⟩ := by
      rw [hafter]
      exact Accounts.identifier_account l.toAccounts _
    have hl₁ := setWithLocation_ok (congrArg l.located hid.symm) h₁
    have hl' : l' = l.write s := by rw [← hl₁]; exact (Prod.mk.inj hset).2.symm
    rw [hb, htiming, hl']
    exact .stakeDelegation hbody rfl hs hafter hcovered (signed_of_predicatePassed hpassed (by rw [hbody]; rfl))
  | payment p =>
    simp only [hbody, SignedCommand.source, SignedCommand.receiver, Body.source, Body.receiver] at h
    obtain ⟨r, s, hl, hpaid, htiming, hb⟩ := paymentUpdates_ok h
    rw [hl] at hset
    have hl' := setLocatedAccounts_two (congrArg l.located hpaid.identifier_receiver.symm)
      (congrArg l.located hpaid.identifier_source.symm) (by
        rw [hpaid.identifier_receiver, hpaid.identifier_source]
        by_cases heq : (⟨p.sourcePk, p.tokenId⟩ : AccountId) = ⟨p.receiverPk, p.tokenId⟩
        · exact .inr (heq ▸ hpaid.found)
        · exact .inl heq) hset
    rw [hb, htiming, hl']
    exact .payment hbody rfl rfl hpaid (signed_of_predicatePassed hpassed (by rw [hbody]; rfl))
  | createNewToken p =>
    simp only [hbody, SignedCommand.receiver, Body.receiver] at h
    obtain ⟨f, r, hl, hafter, hcharged, hcovered, hnew, hr, htiming, hb⟩ := createNewTokenUpdates_ok h
    rw [hl] at hset
    have hf : f.identifier = c.feePayer := by rw [hafter, ← ha]; rfl
    have hr' : r.identifier = ⟨p.tokenOwnerPk, l.nextAvailableToken⟩ := by
      rw [hr]
      exact Accounts.identifier_account l.toAccounts _
    have hl' := setLocatedAccounts_two (congrArg l.located hf.symm) (congrArg l.located hr'.symm)
      (.inr (hf ▸ hfound)) hset
    rw [hb, htiming, hl']
    exact .createNewToken hbody rfl hafter hcharged hcovered hnew hr
  | createTokenAccount p =>
    simp only [hbody, SignedCommand.source, SignedCommand.receiver, Body.source, Body.receiver] at h
    obtain ⟨f, r, s, hcreated, hl, htiming, hb⟩ := createTokenAccountUpdates_ok h
    have hf := hcreated.identifier_feePayer.trans ha
    have hr := hcreated.identifier_receiver
    have hs := hcreated.identifier_source ha
    have hl' : l' = if (⟨p.tokenOwnerPk, p.tokenId⟩ : AccountId) = ⟨p.receiverPk, p.tokenId⟩
        then (l.write f).write s else ((l.write r).write f).write s := by
      rw [hl] at hset
      split at hset
      next heq =>
        rw [if_pos heq]
        exact setLocatedAccounts_two (congrArg l.located hf.symm) (congrArg l.located hs.symm)
          (.inr (hf ▸ hfound)) hset
      next hne =>
        rw [if_neg hne]
        obtain ⟨_, l₁, h₁, hset⟩ := run_bind_eq_ok.1 hset
        have hl₁ := setWithLocation_ok (congrArg l.located hr.symm) h₁
        subst hl₁
        have hfr : c.feePayer ≠ r.identifier := by
          rw [hr]
          intro heq
          exact hfound (heq ▸ hcreated.new)
        have hfound' : (l.write r).find f.identifier ≠ none := by
          rw [find_write, hf, if_neg hfr]
          exact hfound
        exact setLocatedAccounts_two (by rw [located_write r (.inl (hf ▸ hfr)), hf])
          (by rw [located_write r (.inl (by rw [hs, hr]; exact hne)), hs]) (.inr hfound') hset
    rw [hb, htiming, hl']
    exact .createTokenAccount hbody rfl rfl hcreated
  | mintTokens p =>
    simp only [hbody, SignedCommand.source, SignedCommand.receiver, Body.source, Body.receiver] at h
    obtain ⟨r, s, hl, hminted, htiming, hb, htoken⟩ := mintTokensUpdates_ok h
    rw [hl] at hset
    have hl' := setLocatedAccounts_two (congrArg l.located hminted.identifier_receiver.symm)
      (congrArg l.located hminted.identifier_source.symm)
      (.inr (hminted.identifier_receiver ▸ hminted.receiverFound)) hset
    rw [hb, htiming, hl']
    exact .mintTokens hbody rfl rfl htoken hminted (signed_of_predicatePassed hpassed (by rw [hbody]; rfl))

open PlainLedger in
/-- **What a signed command does.** The fee payer is charged, and the effect is
one of the six. -/
theorem applyUserCommand_effect {fee : Fee} {slot : GlobalSlot} {c : SignedCommand} {l l' : PlainLedger F VK}
    {u : SignedCommandApplied F} (h : (applyUserCommandUnchecked fee slot c).run l = (.ok u, l')) :
    ∃ a a' sourceTiming, l.find c.feePayer = some a ∧ Charged slot c a a' ∧
      CommandEffect fee slot c (l.write a') a' u.body sourceTiming l' ∧
      u.common.userCommand.data = c ∧ u.common.previousReceiptChainHash = a.receiptChainHash ∧
      u.common.feePayerTiming = a.timing ∧ u.common.sourceTiming = sourceTiming := by
  obtain ⟨_, -, h⟩ := orRaise_bind_eq_ok.1 h
  replace h := reads_bind_eq_ok.1 h
  obtain ⟨⟨loc, a', common⟩, hpay, h⟩ := orRaise_bind_eq_ok.1 h
  obtain ⟨rfl, a, ha, hcharged, rfl⟩ := payFee_ok hpay
  have hid : a'.identifier = c.feePayer := hcharged.identifier.trans (Accounts.identifier_of_find ha)
  obtain ⟨_, l₁, hset, h⟩ := run_bind_eq_ok.1 h
  have hl₁ : l₁ = l.write a' := setWithLocation_ok (congrArg _ hid.symm) hset
  replace h := reads_bind_eq_ok.1 h
  have hloc : l.located c.feePayer = l₁.located c.feePayer := by
    rw [hl₁, located_write a' (.inr (by rw [hid]; exact ne_of_eq_of_ne ha (Option.some_ne_none a)))]
  have hfound : l₁.find c.feePayer ≠ none := by
    rw [hl₁, find_write, if_pos hid.symm]
    exact Option.some_ne_none a'
  dsimp only [id] at h
  split at h
  next upd hupd =>
    obtain ⟨_, l₂, hwrite, h⟩ := run_bind_eq_ok.1 h
    obtain ⟨rfl, rfl⟩ := pure_eq_ok.1 (reads_bind_eq_ok.1 h)
    rw [hloc] at hupd
    exact ⟨a, a', _, ha, hcharged, hl₁ ▸ computeUpdates_effect hid hfound hupd hwrite, rfl, rfl, rfl, rfl⟩
  next =>
    obtain ⟨rfl, rfl⟩ := pure_eq_ok.1 h
    exact ⟨a, a', none, ha, hcharged, hl₁ ▸ .failed, rfl, rfl, rfl, rfl⟩
  next => cases h

end Mina.TransactionLogic
