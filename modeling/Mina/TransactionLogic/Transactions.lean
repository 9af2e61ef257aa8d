/-
What a transaction does to a plain ledger, and the runs of transactions: each
is applied to the ledger that the one before has left. The results about
runs are an induction over `applyTransactions` with `applyTransaction_effect`
for the step.
-/
import Mina.TransactionLogic.Rewards

namespace Mina.TransactionLogic

open LedgerIntf LedgerM

/-! ## Runs -/

section Ledger

variable {L F VK Hash : Type} [ChainHashes F] [LedgerIntf L F VK Hash]

/-- The transactions are applied in order, each at its slot. -/
def applyTransactions (accountCreationFee : Fee) :
    List (GlobalSlot × Txn) → LedgerM L (List (TransactionApplied F Hash))
  | [] => return []
  | (txnGlobalSlot, t) :: rest => do
    let applied ← applyTransaction accountCreationFee txnGlobalSlot t
    let rest ← applyTransactions accountCreationFee rest
    return applied :: rest

/-- `Staged_undos.apply`: the latest transaction first. -/
def StagedUndos.apply (accountCreationFee : Fee) : List (TransactionApplied F Hash) → LedgerM L Unit
  | [] => return ()
  | applied :: rest => do
    undo accountCreationFee applied
    StagedUndos.apply accountCreationFee rest

omit [ChainHashes F] in
theorem StagedUndos.apply_append {fee : Fee} {us vs : List (TransactionApplied F Hash)} {l l₁ l' : L}
    (h : (StagedUndos.apply fee us).run l = (.ok (), l₁)) (h' : (StagedUndos.apply fee vs).run l₁ = (.ok (), l')) :
    (StagedUndos.apply fee (us ++ vs)).run l = (.ok (), l') := by
  induction us generalizing l with
  | nil =>
    obtain ⟨-, rfl⟩ := pure_eq_ok.1 h
    exact h'
  | cons u us ih =>
    obtain ⟨_, l₂, hundo, h⟩ := run_bind_eq_ok.1 h
    exact run_bind_eq_ok.2 ⟨_, l₂, hundo, ih h⟩

theorem applyTransactions_cons {fee : Fee} {slot : GlobalSlot} {t : Txn} {ts : List (GlobalSlot × Txn)} {l l' : L}
    {us : List (TransactionApplied F Hash)} (h : (applyTransactions fee ((slot, t) :: ts)).run l = (.ok us, l')) :
    ∃ u us' l₁, us = u :: us' ∧ (applyTransaction fee slot t).run l = (.ok u, l₁) ∧
      (applyTransactions fee ts).run l₁ = (.ok us', l') := by
  obtain ⟨u, l₁, hu, h⟩ := run_bind_eq_ok.1 h
  obtain ⟨us', l₂, hus, h⟩ := run_bind_eq_ok.1 h
  obtain ⟨rfl, rfl⟩ := pure_eq_ok.1 h
  exact ⟨u, us', l₁, rfl, hu, hus⟩

end Ledger

/-! ## Effects -/

variable {F VK Hash : Type} [ChainHashes F] [LedgerHash F VK Hash]

/-- What is recorded of a transaction, and the ledger after. -/
inductive TransactionEffect (fee : Fee) (slot : GlobalSlot) (l : PlainLedger F VK) :
    Txn → Varying F → PlainLedger F VK → Prop
  | command {c : SignedCommand} {u : SignedCommandApplied F} {a a' : Account F VK} {l' : PlainLedger F VK}
      (found : l.find c.feePayer = some a) (charged : Charged slot c a a')
      (effect : CommandEffect fee slot c (l.write a') a' u.body u.common.sourceTiming l')
      (data : u.common.userCommand.data = c) (chainHash : u.common.previousReceiptChainHash = a.receiptChainHash)
      (timing : u.common.feePayerTiming = a.timing) :
      TransactionEffect fee slot l (.command c) (.command u) l'
  | feeTransfer {t : FeeTransfer} {u : FeeTransferApplied} {l' : PlainLedger F VK} (data : u.feeTransfer = t)
      (effect : FeeTransferEffect fee slot l t u.previousEmptyAccounts u.receiverTiming l') :
      TransactionEffect fee slot l (.feeTransfer t) (.feeTransfer u) l'
  | coinbase {cb : Coinbase} {u : CoinbaseApplied} {l' : PlainLedger F VK} (data : u.coinbase = cb)
      (effect : CoinbaseEffect fee slot l cb u.previousEmptyAccounts u.receiverTiming l') :
      TransactionEffect fee slot l (.coinbase cb) (.coinbase u) l'

/-- **What a transaction does.** -/
theorem applyTransaction_effect {fee : Fee} {slot : GlobalSlot} {t : Txn} {l l' : PlainLedger F VK}
    {applied : TransactionApplied F Hash} (h : (applyTransaction fee slot t).run l = (.ok applied, l')) :
    TransactionEffect fee slot l t applied.varying l' := by
  replace h := reads_bind_eq_ok.1 h
  obtain ⟨varying, l₁, hvarying, h⟩ := run_bind_eq_ok.1 h
  obtain ⟨rfl, rfl⟩ := pure_eq_ok.1 h
  cases t with
  | command c =>
    obtain ⟨u, l₂, hu, hvarying⟩ := run_bind_eq_ok.1 hvarying
    obtain ⟨rfl, rfl⟩ := pure_eq_ok.1 hvarying
    obtain ⟨a, a', timing, hfound, hcharged, heffect, hdata, hchain, hfeePayer, rfl⟩ := applyUserCommand_effect hu
    exact .command hfound hcharged heffect hdata hchain hfeePayer
  | feeTransfer t =>
    obtain ⟨u, l₂, hu, hvarying⟩ := run_bind_eq_ok.1 hvarying
    obtain ⟨rfl, rfl⟩ := pure_eq_ok.1 hvarying
    obtain ⟨hdata, heffect⟩ := applyFeeTransfer_effect hu
    exact .feeTransfer hdata heffect
  | coinbase cb =>
    obtain ⟨u, l₂, hu, hvarying⟩ := run_bind_eq_ok.1 hvarying
    obtain ⟨rfl, rfl⟩ := pure_eq_ok.1 hvarying
    obtain ⟨hdata, heffect⟩ := applyCoinbase_effect hu
    exact .coinbase hdata heffect

/-! ## Writes -/

section Writes

omit [LedgerHash F VK Hash]

variable {R S : Account F VK → Account F VK → Prop} {l l₁ l' : PlainLedger F VK}

/-- The ledger after writes, each of which relates the account that was there
(or the new one) to the account that is written. -/
inductive PlainLedger.Writes (R : Account F VK → Account F VK → Prop) (l : PlainLedger F VK) : PlainLedger F VK → Prop
  | refl : Writes R l l
  | write {l₁ : PlainLedger F VK} {a : Account F VK} (h : Writes R l l₁) (ha : R (l₁.account a.identifier) a) :
      Writes R l (l₁.write a)

namespace PlainLedger.Writes

theorem single {a : Account F VK} (ha : R (l.account a.identifier) a) : Writes R l (l.write a) := .write .refl ha

theorem two {a b : Account F VK} (ha : R (l.account a.identifier) a) (hb : R ((l.write a).account b.identifier) b) :
    Writes R l ((l.write a).write b) := .write (.single ha) hb

theorem trans (h : Writes R l l₁) (h' : Writes R l₁ l') : Writes R l l' := by
  induction h' with
  | refl => exact h
  | write _ ha ih => exact .write ih ha

theorem mono (h : Writes R l l') (hRS : ∀ {a b}, R a b → S a b) : Writes S l l' := by
  induction h with
  | refl => exact .refl
  | write _ ha ih => exact .write ih (hRS ha)

/-- What relates each account to itself and composes relates the accounts
before to those after. -/
theorem account (hrefl : ∀ a, R a a) (htrans : ∀ {a b c}, R a b → R b c → R a c) (h : Writes R l l')
    (accountId : AccountId) : R (l.account accountId) (l'.account accountId) := by
  induction h with
  | refl => exact hrefl _
  | write _ ha ih =>
    rw [account_write]
    split
    next heq =>
      rw [← heq] at ha
      exact htrans ih ha
    next => exact ih

end PlainLedger.Writes

end Writes

/-- What a write may change of an account, for a transaction that `signer` has
signed. Only the signer's accounts are debited or change their delegates,
and an account that is covered stays covered. -/
structure AccountWrite (slot : GlobalSlot) (signer : Option PublicKey) (a b : Account F VK) : Prop where
  kept : b = { a with
    tokenPermissions := b.tokenPermissions
    balance := b.balance
    delegate := b.delegate
    timing := b.timing }
  debit : b.balance.val < a.balance.val → signer = some a.publicKey
  delegate : b.delegate ≠ a.delegate → signer = some a.publicKey
  covered : ∀ slot', slot ≤ slot' → Covered slot' a → Covered slot' b

namespace AccountWrite

variable {slot : GlobalSlot} {signer : Option PublicKey} {a b c : Account F VK}

omit [ChainHashes F] [LedgerHash F VK Hash]

theorem publicKey (h : AccountWrite slot signer a b) : b.publicKey = a.publicKey := by rw [h.kept]

theorem refl (a : Account F VK) : AccountWrite slot signer a a :=
  ⟨rfl, fun h => absurd h (Nat.lt_irrefl _), fun h => absurd rfl h, fun _ _ h => h⟩

theorem trans (h : AccountWrite slot signer a b) (h' : AccountWrite slot signer b c) :
    AccountWrite slot signer a c := by
  refine ⟨?_, fun hlt => ?_, fun hne => ?_, fun slot' hle hcovered => h'.covered slot' hle (h.covered slot' hle hcovered)⟩
  · rw [h'.kept, h.kept]
  · by_cases hab : b.balance.val < a.balance.val
    · exact h.debit hab
    · rw [← h.publicKey]
      exact h'.debit (by omega)
  · by_cases hab : b.delegate = a.delegate
    · rw [← h.publicKey]
      exact h'.delegate fun heq => hne (heq.trans hab)
    · exact h.delegate hab

/-- An account that is not debited. -/
theorem credited (hkept : b = { a with
      tokenPermissions := b.tokenPermissions
      balance := b.balance
      timing := b.timing }) (hle : a.balance.val ≤ b.balance.val) (htiming : b.timing = a.timing ∨ Covered slot b) :
    AccountWrite slot signer a b := by
  refine ⟨?_, fun hlt => absurd hlt (Nat.not_lt.2 hle), fun hne => absurd ?_ hne, fun slot' hslot hcovered => ?_⟩
  · rw [hkept]
  · rw [hkept]
  · rcases htiming with htiming | htiming
    · exact hcovered.mono htiming hle
    · exact htiming.later hslot

/-- An account of the signer. -/
theorem own (hkept : b = { a with
      tokenPermissions := b.tokenPermissions
      balance := b.balance
      delegate := b.delegate
      timing := b.timing }) (hsigner : signer = some a.publicKey) (hcovered : Covered slot b) :
    AccountWrite slot signer a b :=
  ⟨hkept, fun _ => hsigner, fun _ => hsigner, fun _ hle _ => hcovered.later hle⟩

end AccountWrite

omit [LedgerHash F VK Hash] in
theorem Rewarded.accountWrite {fee : Fee} {slot : GlobalSlot} {l : Accounts F VK} {accountId : AccountId} {reward : Nat}
    {a : Account F VK} {signer : Option PublicKey} (h : Rewarded fee slot l accountId reward a) :
    AccountWrite slot signer (l.account a.identifier) a := by
  rw [h.identifier]
  refine .credited ?_ h.le h.timing
  rw [h.account]

theorem Paid.le {fee : Fee} {slot : GlobalSlot} {l : Accounts F VK} {source receiver : AccountId} {amount : Amount}
    {r s : Account F VK} (h : Paid fee slot l source receiver amount r s) :
    (l.account receiver).balance.val ≤ r.balance.val := by
  have hreceived := h.received
  rw [creationFee] at hreceived
  split at hreceived
  next hnew =>
    rw [Accounts.account, hnew]
    exact Nat.zero_le _
  next => omega

/-- The writes of a transaction, to the accounts of `ids`. -/
abbrev PlainLedger.WritesTo (slot : GlobalSlot) (signer : Option PublicKey) (ids : List AccountId) (l l' : PlainLedger F VK) :
    Prop := Writes (fun a b => AccountWrite slot signer a b ∧ b.identifier ∈ ids) l l'

open PlainLedger in
/-- What a command writes after its fee has been charged. -/
theorem CommandEffect.writes {fee : Fee} {slot : GlobalSlot} {c : SignedCommand} {l l' : PlainLedger F VK}
    {a : Account F VK} {body : AppliedBody} {timing : Option Timing} (ha : l.find c.feePayer = some a)
    (hsigner : c.feePayerPk = c.signer) (h : CommandEffect fee slot c l a body timing l') :
    l.WritesTo slot (some c.signer)
      [c.feePayer, c.source l.nextAvailableToken, c.receiver l.nextAvailableToken] l' := by
  have hid := Accounts.identifier_of_find ha
  have hacc := Accounts.account_of_find ha
  -- The accounts of the fee payer, and of a source that is the fee payer, are the signer's.
  have hown {x : Account F VK} {accountId : AccountId} (hx : x.identifier = accountId)
      (hpk : c.feePayerPk = accountId.publicKey) : some c.signer = some x.publicKey := by
    rw [← hsigner, hpk, ← hx]
    rfl
  cases h with
  | failed => exact .refl
  | stakeDelegation hbody hsource hfound hafter hcovered hsigned =>
    rename_i delegator newDelegate source s
    have hs : s.identifier = source := by
      rw [hafter]
      exact Accounts.identifier_account l.toAccounts source
    refine .single ⟨?_, ?_⟩
    · rw [hs]
      refine .own (by rw [hafter]) (hown (Accounts.identifier_account l.toAccounts source) ?_) hcovered
      rw [hsigned, SignedCommand.sourcePk, hbody, hsource]
      rfl
    · rw [hs, hsource, SignedCommand.source, hbody]
      exact List.mem_cons_of_mem _ List.mem_cons_self
  | payment hbody hsource hreceiver hpaid hsigned =>
    rename_i p source receiver r s
    refine .two ⟨?_, ?_⟩ ⟨?_, ?_⟩
    · rw [hpaid.identifier_receiver]
      exact .credited (by rw [hpaid.receiverAfter]) hpaid.le (.inl (by rw [hpaid.receiverAfter]))
    · rw [hpaid.identifier_receiver, hreceiver, SignedCommand.receiver, hbody]
      exact List.mem_cons_of_mem _ (List.mem_cons_of_mem _ List.mem_cons_self)
    · have hsource' : (l.write r).account source = if source = receiver then r else l.account source := by
        rw [account_write, hpaid.identifier_receiver]
      rw [hpaid.identifier_source]
      refine .own ?_ (hown (Accounts.identifier_account (l.write r).toAccounts source) ?_) hpaid.covered
      · rw [hsource']
        have hafter := hpaid.sourceAfter
        split at hafter
        next heq =>
          rw [if_pos heq, hafter, hpaid.receiverAfter, heq]
        next hne => rw [if_neg hne, hafter]
      · rw [hsigned, SignedCommand.sourcePk, hbody, hsource]
        rfl
    · rw [hpaid.identifier_source, hsource, SignedCommand.source, hbody]
      exact List.mem_cons_of_mem _ List.mem_cons_self
  | createNewToken hbody hreceiver hfeePayer hcharged hcovered hnew hafter =>
    rename_i p receiver f r
    have hf : f.identifier = c.feePayer := by
      rw [hfeePayer]
      exact hid
    have hr : r.identifier = receiver := by
      rw [hafter]
      exact Accounts.identifier_account l.toAccounts receiver
    have hne : receiver ≠ c.feePayer := by
      rintro rfl
      rw [hnew] at ha
      cases ha
    refine .two ⟨?_, ?_⟩ ⟨?_, ?_⟩
    · rw [hf, hacc]
      exact .own (by rw [hfeePayer]) (hown hid rfl) hcovered
    · rw [hf]
      exact List.mem_cons_self
    · rw [hr, account_write, if_neg (by rw [hf]; exact hne)]
      exact .credited (by rw [hafter]) (by rw [hafter]) (.inl (by rw [hafter]))
    · rw [hr, hreceiver, SignedCommand.receiver, hbody]
      exact List.mem_cons_of_mem _ (List.mem_cons_of_mem _ List.mem_cons_self)
  | createTokenAccount hbody hsource hreceiver hcreated =>
    rename_i p source receiver f r s
    have hf : f.identifier = c.feePayer := hcreated.identifier_feePayer.trans hid
    have hr := hcreated.identifier_receiver
    have hs := hcreated.identifier_source hid
    have hne : c.feePayer ≠ receiver := by
      rintro heq
      rw [heq, hcreated.new] at ha
      cases ha
    have hmemf : f.identifier ∈ [c.feePayer, c.source l.nextAvailableToken, c.receiver l.nextAvailableToken] := by
      rw [hf]
      exact List.mem_cons_self
    have hmems : s.identifier ∈ [c.feePayer, c.source l.nextAvailableToken, c.receiver l.nextAvailableToken] := by
      rw [hs, hsource, SignedCommand.source, hbody]
      exact List.mem_cons_of_mem _ List.mem_cons_self
    have hownf : AccountWrite slot (some c.signer) a f :=
      .own (by rw [hcreated.feePayerAfter]) (hown hid rfl) hcreated.coveredFeePayer
    split
    next heq =>
      refine .two ⟨?_, hmemf⟩ ⟨?_, hmems⟩
      · rw [hf, hacc]
        exact hownf
      · have hafter := hcreated.sourceAfter
        rw [if_pos heq] at hafter
        rw [hs, account_write, if_neg (by rw [hf, heq]; exact hne.symm), heq]
        refine .credited ?_ ?_ (.inr hcreated.coveredSource)
        · rw [hafter, hcreated.receiverAfter]
        · rw [hafter, hcreated.receiverAfter]
    next hsr =>
      have hafter := hcreated.sourceAfter
      rw [if_neg hsr] at hafter
      refine .write (.two ⟨?_, ?_⟩ ⟨?_, hmemf⟩) ⟨?_, hmems⟩
      · rw [hr]
        exact .credited (by rw [hcreated.receiverAfter]) (by rw [hcreated.receiverAfter])
          (.inl (by rw [hcreated.receiverAfter]))
      · rw [hr, hreceiver, SignedCommand.receiver, hbody]
        exact List.mem_cons_of_mem _ (List.mem_cons_of_mem _ List.mem_cons_self)
      · rw [hf, account_write, if_neg (by rw [hr]; exact hne), hacc]
        exact hownf
      · have hsource' : ((l.write r).write f).account source = if source = c.feePayer then f else l.account source := by
          rw [account_write, hf, account_write, hr, if_neg hsr]
        rw [hs, hsource']
        exact .credited (by rw [hafter]) (by rw [hafter]) (.inr hcreated.coveredSource)
  | mintTokens hbody hsource hreceiver htok hminted hsigned =>
    rename_i p source receiver r s
    have hsource' : (l.write r).account source = if source = receiver then r else l.account source := by
      rw [account_write, hminted.identifier_receiver]
    refine .two ⟨?_, ?_⟩ ⟨?_, ?_⟩
    · rw [hminted.identifier_receiver]
      exact .credited (by rw [hminted.receiverAfter]) (by rw [hminted.received]; exact Nat.le_add_right _ _)
        (.inl (by rw [hminted.receiverAfter]))
    · rw [hminted.identifier_receiver, hreceiver, SignedCommand.receiver, hbody]
      exact List.mem_cons_of_mem _ (List.mem_cons_of_mem _ List.mem_cons_self)
    · rw [hminted.identifier_source, hsource']
      exact .credited (by rw [hminted.sourceAfter]) (by rw [hminted.sourceAfter]) (.inr hminted.covered)
    · rw [hminted.identifier_source, hsource, SignedCommand.source, hbody]
      exact List.mem_cons_of_mem _ List.mem_cons_self

theorem FeeTransferEffect.writes {fee : Fee} {slot : GlobalSlot} {l l' : PlainLedger F VK} {t : FeeTransfer}
    {emptys : List AccountId} {timing : Timing} {signer : Option PublicKey}
    (h : FeeTransferEffect fee slot l t emptys timing l') : l.WritesTo slot signer (FeeTransfer.receivers t) l' := by
  cases h with
  | one htoken hrewarded =>
    refine .single ⟨hrewarded.accountWrite, ?_⟩
    rw [hrewarded.identifier]
    exact List.mem_cons_self
  | same htoken1 htoken2 heq hfees hrewarded =>
    refine .single ⟨hrewarded.accountWrite, ?_⟩
    rw [hrewarded.identifier]
    exact List.mem_cons_self
  | two htoken1 htoken2 hne hrewarded1 htiming hrewarded2 =>
    have hrewarded2' := hrewarded2.write (by rw [hrewarded1.identifier]; exact hne)
    refine .two ⟨hrewarded1.accountWrite, ?_⟩ ⟨hrewarded2'.accountWrite, ?_⟩
    · rw [hrewarded1.identifier]
      exact List.mem_cons_self
    · rw [hrewarded2.identifier]
      exact List.mem_cons_of_mem _ List.mem_cons_self

theorem CoinbaseEffect.writes {fee : Fee} {slot : GlobalSlot} {l l' : PlainLedger F VK} {cb : Coinbase}
    {emptys : List AccountId} {timing : Timing} {signer : Option PublicKey}
    (h : CoinbaseEffect fee slot l cb emptys timing l') : l.WritesTo slot signer cb.accountsAccessed l' := by
  cases h with
  | alone hft hrewarded =>
    refine .single ⟨hrewarded.accountWrite, ?_⟩
    rw [hrewarded.identifier]
    exact List.mem_cons_self
  | feeTransfer hft hne hle htransferee hreceiver htiming =>
    have hreceiver' := hreceiver.write (by rw [htransferee.identifier]; exact hne)
    refine .two ⟨htransferee.accountWrite, ?_⟩ ⟨hreceiver'.accountWrite, ?_⟩
    · rw [htransferee.identifier, Coinbase.accountsAccessed, hft]
      exact List.mem_cons_of_mem _ List.mem_cons_self
    · rw [hreceiver.identifier]
      exact List.mem_cons_self

/-- Among all transactions. -/
def Txn.transaction : Txn → Transaction
  | .command c => .command (.signedCommand c)
  | .feeTransfer t => .feeTransfer t
  | .coinbase cb => .coinbase cb

/-- The signer of a transaction, if it is a command. -/
def Txn.signer : Txn → Option PublicKey
  | .command c => some c.signer
  | .feeTransfer _ | .coinbase _ => none

/-- `Transaction.accounts_accessed`. -/
def Txn.accountsAccessed (nextAvailableToken : TokenId) : Txn → List AccountId
  | .command c => UserCommand.accountsAccessed nextAvailableToken (.signedCommand c)
  | .feeTransfer t => FeeTransfer.receivers t
  | .coinbase cb => cb.accountsAccessed

/-- The induction over a run. -/
theorem applyTransactions_induction {fee : Fee}
    {P : PlainLedger F VK → List (GlobalSlot × Txn) → List (TransactionApplied F Hash) → PlainLedger F VK → Prop}
    (nil : ∀ l, P l [] [] l)
    (cons : ∀ {l slot t applied l₁ ts us l'}, TransactionEffect fee slot l t applied.varying l₁ → P l₁ ts us l' →
      P l ((slot, t) :: ts) (applied :: us) l')
    {ts : List (GlobalSlot × Txn)} {l l' : PlainLedger F VK} {us : List (TransactionApplied F Hash)}
    (h : (applyTransactions fee ts).run l = (.ok us, l')) : P l ts us l' := by
  induction ts generalizing l us with
  | nil =>
    obtain ⟨rfl, rfl⟩ := pure_eq_ok.1 h
    exact nil l
  | cons st ts ih =>
    obtain ⟨u, us', l₁, rfl, hu, hus⟩ := applyTransactions_cons h
    exact cons (applyTransaction_effect hu) (ih hus)

/-! ## A run

Field elements and hashes are numbers here. -/

namespace SampleRun

instance : ChainHashes Nat where
  receiptChainEmpty := 0
  receiptChainCons payload h := 2 * h + payload.common.fee.val
  stateHashDummy := 0

instance : LedgerHash Nat Nat Nat where
  merge height h h' := 3 * h + 5 * h' + height
  hashAccount a := a.balance.val + a.nonce.val
  emptyAccount := 0

def alice : PublicKey := ⟨1, false⟩
def bob : PublicKey := ⟨2, false⟩
def carol : PublicKey := ⟨3, true⟩

def ledger : PlainLedger Nat Nat where
  depth := 3
  slots := [some (Account.create ⟨alice, TokenId.default⟩ 100),
    some { Account.create ⟨bob, TokenId.default⟩ 60 with
      timing := .timed ⟨50, 10, 0, 1, 5⟩ }]
  nextAvailableToken := 2

def signed (pk : PublicKey) (nonce : AccountNonce) (body : Body) : SignedCommand where
  payload := { common := ⟨3, TokenId.default, pk, nonce, GlobalSlot.maxValue, 0⟩, body }
  signer := pk
  signature := 0

/-- The delegation fails, since there is no such account. -/
def transactions : List (GlobalSlot × Txn) :=
  [(12, .command (signed alice 0 (.payment ⟨alice, carol, TokenId.default, 20⟩))),
    (12, .command (signed alice 1 (.createNewToken ⟨alice, false⟩))),
    (13, .command (signed alice 2 (.mintTokens ⟨2, alice, alice, 7⟩))),
    (13, .command (signed bob 0 (.stakeDelegation bob ⟨9, false⟩))),
    (13, .coinbase ⟨carol, 30, some ⟨alice, 4⟩⟩),
    (14, .feeTransfer (.two ⟨bob, 5, TokenId.default⟩ ⟨carol, 7, TokenId.default⟩))]

def run : Except TransactionError (List (TransactionApplied Nat Nat)) × PlainLedger Nat Nat :=
  (applyTransactions 1 transactions).run ledger

def applied : List (TransactionApplied Nat Nat) := run.1.toOption.getD []

theorem run_eq : (applyTransactions 1 transactions).run ledger = (.ok applied, run.2) := by decide +kernel

end SampleRun

end Mina.TransactionLogic
