/-
What a run does to one account: its nonce counts the commands that it has
paid for and its receipt chain hash commits to them in order, nobody but its
owner can take currency from it or change its delegate, and its balance never
falls below the minimum balance of its vesting schedule.

`AccountStep` says what one transaction does to any account, whether or not
the transaction names it; each result is an induction over the run.
-/
import Mina.TransactionLogic.Transactions

namespace Mina.TransactionLogic

open LedgerIntf LedgerM

variable {F VK Hash : Type} [ChainHashes F] [LedgerHash F VK Hash]

/-! ## One transaction -/

/-- The command that an account has paid for. -/
def Txn.paidBy (accountId : AccountId) : Txn → Option SignedCommand
  | .command c => if c.feePayer = accountId then some c else none
  | .feeTransfer _ | .coinbase _ => none

/-- An account before and after a transaction. -/
structure AccountStep (slot : GlobalSlot) (t : Txn) (accountId : AccountId) (a b : Account F VK) : Prop where
  kept : b = { a with
    tokenPermissions := b.tokenPermissions
    balance := b.balance
    nonce := b.nonce
    receiptChainHash := b.receiptChainHash
    delegate := b.delegate
    timing := b.timing }
  unpaid : t.paidBy accountId = none → b.nonce = a.nonce ∧ b.receiptChainHash = a.receiptChainHash
  paid : ∀ c, t.paidBy accountId = some c → a.nonce = c.nonce ∧ b.nonce = c.nonce.succ ∧
    b.receiptChainHash = ChainHashes.receiptChainCons c.payload a.receiptChainHash
  debit : b.balance.val < a.balance.val → t.signer = some accountId.publicKey
  delegate : b.delegate ≠ a.delegate → t.signer = some accountId.publicKey
  covered : ∀ slot', slot ≤ slot' → Covered slot' a → Covered slot' b

omit [ChainHashes F] [LedgerHash F VK Hash] in
theorem AccountWrite.unpaid {slot : GlobalSlot} {signer : Option PublicKey} {a b : Account F VK}
    (h : AccountWrite slot signer a b) : b.nonce = a.nonce ∧ b.receiptChainHash = a.receiptChainHash := by
  rw [h.kept]
  exact ⟨rfl, rfl⟩

omit [LedgerHash F VK Hash] in
/-- What is written without a fee is no payment. -/
theorem AccountWrite.accountStep {slot : GlobalSlot} {t : Txn} {accountId : AccountId} {a b : Account F VK}
    (h : AccountWrite slot t.signer a b) (hid : a.identifier = accountId) (ht : t.paidBy accountId = none) :
    AccountStep slot t accountId a b where
  kept := by rw [h.kept]
  unpaid _ := h.unpaid
  paid c hc := by rw [ht] at hc; cases hc
  debit hlt := by rw [h.debit hlt, ← hid]; rfl
  delegate hne := by rw [h.delegate hne, ← hid]; rfl
  covered := h.covered

omit [LedgerHash F VK Hash] in
/-- The fee payer of a command, charged and then written by it. -/
theorem Charged.accountStep {slot : GlobalSlot} {c : SignedCommand} {a a' b : Account F VK}
    (h : Charged slot c a a') (hwrite : AccountWrite slot (some c.signer) a' b) :
    AccountStep slot (.command c) c.feePayer a b where
  kept := by rw [hwrite.kept, h.account]
  unpaid hnone := by rw [Txn.paidBy, if_pos rfl] at hnone; cases hnone
  paid c' hc := by
    rw [Txn.paidBy, if_pos rfl, Option.some.injEq] at hc
    subst hc
    rw [hwrite.unpaid.1, hwrite.unpaid.2, h.account]
    exact ⟨h.nonce, rfl, rfl⟩
  debit _ := by rw [Txn.signer, ← h.signer]; rfl
  delegate _ := by rw [Txn.signer, ← h.signer]; rfl
  covered slot' hle _ := by
    have hcovered : Covered slot a' := covered_of_validateTiming h.timing h.balance.ge
    exact hwrite.covered slot' hle (hcovered.later hle)

open PlainLedger in
/-- **What a transaction does to any account.** -/
theorem TransactionEffect.accountStep {fee : Fee} {slot : GlobalSlot} {l l' : PlainLedger F VK} {t : Txn}
    {v : Varying F} (h : TransactionEffect fee slot l t v l') (accountId : AccountId) :
    AccountStep slot t accountId (l.account accountId) (l'.account accountId) := by
  have hid : (l.account accountId).identifier = accountId := Accounts.identifier_account l.toAccounts accountId
  cases h with
  | command hfound hcharged heffect hdata hchain htiming =>
    rename_i c u a a'
    have ha' := hcharged.identifier.trans (Accounts.identifier_of_find hfound)
    have hfound' : (l.write a').find c.feePayer = some a' := by rw [find_write, if_pos ha'.symm]
    have hwrites : Writes (AccountWrite slot (some c.signer)) (l.write a') l' :=
      (heffect.writes hfound' hcharged.signer).mono fun h => h.1
    have haccount := hwrites.account AccountWrite.refl AccountWrite.trans accountId
    rw [account_write, ha'] at haccount
    split at haccount
    next heq =>
      subst heq
      rw [Accounts.account_of_find hfound] at hid ⊢
      exact hcharged.accountStep haccount
    next hne => exact haccount.accountStep hid (by rw [Txn.paidBy, if_neg (Ne.symm hne)])
  | feeTransfer hdata heffect =>
    have hwrites : l.WritesTo slot none _ l' := heffect.writes
    exact ((hwrites.mono And.left).account AccountWrite.refl AccountWrite.trans accountId).accountStep hid rfl
  | coinbase hdata heffect =>
    have hwrites : l.WritesTo slot none _ l' := heffect.writes
    exact ((hwrites.mono And.left).account AccountWrite.refl AccountWrite.trans accountId).accountStep hid rfl

/-! ## Runs -/

/-- The commands of a run that an account has paid for, in order. -/
def paidBy (accountId : AccountId) (ts : List (GlobalSlot × Txn)) : List SignedCommand :=
  ts.filterMap fun t => t.2.paidBy accountId

/-- **The account remembers its commands.** -/
theorem applyTransactions_history {fee : Fee} {ts : List (GlobalSlot × Txn)} {l l' : PlainLedger F VK}
    {us : List (TransactionApplied F Hash)} (h : (applyTransactions fee ts).run l = (.ok us, l'))
    (accountId : AccountId) :
    (l'.account accountId).nonce.val = ((l.account accountId).nonce.val + (paidBy accountId ts).length) % 2 ^ 32 ∧
      (l'.account accountId).receiptChainHash = (paidBy accountId ts).foldl
        (fun hash c => ChainHashes.receiptChainCons c.payload hash) (l.account accountId).receiptChainHash ∧
      ∀ i c, (paidBy accountId ts)[i]? = some c →
        c.nonce.val = ((l.account accountId).nonce.val + i) % 2 ^ 32 := by
  refine applyTransactions_induction (P := fun l ts _ l' =>
    (l'.account accountId).nonce.val = ((l.account accountId).nonce.val + (paidBy accountId ts).length) % 2 ^ 32 ∧
      (l'.account accountId).receiptChainHash = (paidBy accountId ts).foldl
        (fun hash c => ChainHashes.receiptChainCons c.payload hash) (l.account accountId).receiptChainHash ∧
      ∀ i c, (paidBy accountId ts)[i]? = some c →
        c.nonce.val = ((l.account accountId).nonce.val + i) % 2 ^ 32) ?_ ?_ h
  · intro l
    have hlt := (l.account accountId).nonce.isLt
    refine ⟨(Nat.mod_eq_of_lt hlt).symm, rfl, ?_⟩
    rintro i c hc
    cases hc
  · intro l slot t applied l₁ ts us l' heffect ⟨hnonce, hchain, hpaid⟩
    have hstep := heffect.accountStep accountId
    rw [paidBy] at hnonce hchain hpaid ⊢
    rw [List.filterMap_cons]
    cases ht : t.paidBy accountId with
    | none =>
      obtain ⟨hn, hr⟩ := hstep.unpaid ht
      rw [hn] at hnonce hpaid
      rw [hr] at hchain
      exact ⟨hnonce, hchain, hpaid⟩
    | some c =>
      obtain ⟨hn, hn', hr⟩ := hstep.paid c ht
      have hsucc := AccountNonce.succ_val c.nonce
      rw [← hn', ← hn] at hsucc
      have hlt := (l.account accountId).nonce.isLt
      refine ⟨?_, ?_, ?_⟩
      · rw [hnonce, List.length_cons]
        omega
      · rw [hchain, List.foldl_cons, hr]
      · rintro (_ | i) d hd
        · cases hd
          rw [← hn, Nat.add_zero, Nat.mod_eq_of_lt hlt]
        · rw [hpaid i d hd]
          omega

open SampleRun in
theorem applyTransactions_history_sample :
    (paidBy ⟨alice, TokenId.default⟩ transactions).length = 3 ∧
      (run.2.account ⟨alice, TokenId.default⟩).nonce.val =
        ((ledger.account ⟨alice, TokenId.default⟩).nonce.val + (paidBy ⟨alice, TokenId.default⟩ transactions).length) %
          2 ^ 32 :=
  ⟨by decide +kernel, (applyTransactions_history run_eq ⟨alice, TokenId.default⟩).1⟩

/-- **Only its owner takes from an account.** When a run has left an account
with less than before, or with another delegate, the run has applied a
command that the owner of the account has signed; and no run changes the key,
the token, the permissions, the vote or the snapp state of an account. -/
theorem applyTransactions_debit {fee : Fee} {ts : List (GlobalSlot × Txn)} {l l' : PlainLedger F VK}
    {us : List (TransactionApplied F Hash)} (h : (applyTransactions fee ts).run l = (.ok us, l'))
    (accountId : AccountId) :
    ((l'.account accountId).balance.val < (l.account accountId).balance.val ∨
        (l'.account accountId).delegate ≠ (l.account accountId).delegate →
      ∃ slot c, (slot, Txn.command c) ∈ ts ∧ c.signer = accountId.publicKey) ∧
      l'.account accountId = { l.account accountId with
        tokenPermissions := (l'.account accountId).tokenPermissions
        balance := (l'.account accountId).balance
        nonce := (l'.account accountId).nonce
        receiptChainHash := (l'.account accountId).receiptChainHash
        delegate := (l'.account accountId).delegate
        timing := (l'.account accountId).timing } := by
  refine applyTransactions_induction (P := fun l ts _ l' =>
    ((l'.account accountId).balance.val < (l.account accountId).balance.val ∨
        (l'.account accountId).delegate ≠ (l.account accountId).delegate →
      ∃ slot c, (slot, Txn.command c) ∈ ts ∧ c.signer = accountId.publicKey) ∧
      l'.account accountId = { l.account accountId with
        tokenPermissions := (l'.account accountId).tokenPermissions
        balance := (l'.account accountId).balance
        nonce := (l'.account accountId).nonce
        receiptChainHash := (l'.account accountId).receiptChainHash
        delegate := (l'.account accountId).delegate
        timing := (l'.account accountId).timing }) ?_ ?_ h
  · intro l
    exact ⟨fun hor => hor.elim (fun hlt => absurd hlt (Nat.lt_irrefl _)) fun hne => absurd rfl hne, rfl⟩
  · intro l slot t applied l₁ ts us l' heffect ⟨hrest, hkept⟩
    have hstep := heffect.accountStep accountId
    have hfirst (hsigner : t.signer = some accountId.publicKey) :
        ∃ slot' c, (slot', Txn.command c) ∈ (slot, t) :: ts ∧ c.signer = accountId.publicKey := by
      cases t with
      | command c => exact ⟨slot, c, List.mem_cons_self, Option.some.inj hsigner⟩
      | feeTransfer t => cases hsigner
      | coinbase cb => cases hsigner
    have hlater (hor : (l'.account accountId).balance.val < (l₁.account accountId).balance.val ∨
        (l'.account accountId).delegate ≠ (l₁.account accountId).delegate) :
        ∃ slot' c, (slot', Txn.command c) ∈ (slot, t) :: ts ∧ c.signer = accountId.publicKey := by
      obtain ⟨slot', c, hmem, hsigner⟩ := hrest hor
      exact ⟨slot', c, List.mem_cons_of_mem _ hmem, hsigner⟩
    refine ⟨?_, by rw [hkept, hstep.kept]⟩
    rintro (hlt | hne)
    · by_cases hlt' : (l₁.account accountId).balance.val < (l.account accountId).balance.val
      · exact hfirst (hstep.debit hlt')
      · exact hlater (.inl (by omega))
    · by_cases hne' : (l₁.account accountId).delegate = (l.account accountId).delegate
      · exact hlater (.inr fun heq => hne (heq.trans hne'))
      · exact hfirst (hstep.delegate hne')

open SampleRun in
theorem applyTransactions_debit_sample :
    (run.2.account ⟨alice, TokenId.default⟩).balance.val < (ledger.account ⟨alice, TokenId.default⟩).balance.val ∧
      ∃ slot c, (slot, Txn.command c) ∈ transactions ∧ c.signer = alice := by
  have hlt : (run.2.account ⟨alice, TokenId.default⟩).balance.val <
      (ledger.account ⟨alice, TokenId.default⟩).balance.val := by decide +kernel
  exact ⟨hlt, (applyTransactions_debit run_eq ⟨alice, TokenId.default⟩).1 (.inl hlt)⟩

/-- **No run takes what is locked.** An account whose balance covers its
minimum balance at a slot covers its minimum balance at every later slot,
after any run of transactions up to that slot. -/
theorem applyTransactions_covered {fee : Fee} {ts : List (GlobalSlot × Txn)} {l l' : PlainLedger F VK}
    {us : List (TransactionApplied F Hash)} {start stop : GlobalSlot} {accountId : AccountId}
    (h : (applyTransactions fee ts).run l = (.ok us, l')) (hstart : start ≤ stop) (hslots : ∀ t ∈ ts, t.1 ≤ stop)
    (hcovered : ((l.account accountId).minBalance start).val ≤ (l.account accountId).balance.val) :
    ((l'.account accountId).minBalance stop).val ≤ (l'.account accountId).balance.val := by
  have hrun : (∀ t ∈ ts, t.1 ≤ stop) → Covered stop (l.account accountId) → Covered stop (l'.account accountId) := by
    refine applyTransactions_induction (P := fun l ts _ l' => (∀ t ∈ ts, t.1 ≤ stop) →
      Covered stop (l.account accountId) → Covered stop (l'.account accountId)) (fun l _ hl => hl) ?_ h
    intro l slot t applied l₁ ts us l' heffect ih hslots hl
    have hslot : slot ≤ stop := hslots (slot, t) List.mem_cons_self
    exact ih (fun t ht => hslots t (List.mem_cons_of_mem _ ht))
      ((heffect.accountStep accountId).covered stop hslot hl)
  have hl : Covered start (l.account accountId) := hcovered
  exact hrun hslots (hl.later hstart)

open SampleRun in
theorem applyTransactions_covered_sample :
    ((ledger.account ⟨bob, TokenId.default⟩).minBalance 12).val = 40 ∧
      ((run.2.account ⟨bob, TokenId.default⟩).minBalance 14).val = 30 ∧
      ((run.2.account ⟨bob, TokenId.default⟩).minBalance 14).val ≤
        (run.2.account ⟨bob, TokenId.default⟩).balance.val :=
  ⟨by decide +kernel, by decide +kernel,
    applyTransactions_covered run_eq (show (12 : GlobalSlot) ≤ 14 by decide) (by decide) (by decide +kernel)⟩

end Mina.TransactionLogic
