/-
Undoing an applied transaction gives back the ledger it was applied to, and
undoing the transactions of a run, the latest first, the ledger before the
run. The accounts that the transaction wrote get their contents back, and
those that it created are removed last.
-/
import Mina.TransactionLogic.Grown

namespace Mina.TransactionLogic

open LedgerIntf LedgerM

variable {F VK Hash : Type}

/-! ## Computations that end well -/

namespace LedgerM

variable {L α β : Type}

theorem run_bind_of_ok {x : LedgerM L α} {f : α → LedgerM L β} {l l₁ : L} {a : α} (h : x.run l = (.ok a, l₁)) :
    (x >>= f).run l = (f a).run l₁ := by rw [run_bind, h]

theorem run_reads_bind (f : L → α) (k : α → LedgerM L β) (l : L) : (reads f >>= k).run l = (k (f l)).run l :=
  run_bind_of_ok rfl

theorem run_orRaise_bind {x : Except TransactionError α} {a : α} (h : x = .ok a) (k : α → LedgerM L β) (l : L) :
    (orRaise x >>= k).run l = (k a).run l := run_bind_of_ok (by rw [run_orRaise, h])

end LedgerM

/-! ## Ledgers to be undone -/

/-- No token that is used is available. -/
structure PlainLedger.Available (l : PlainLedger F VK) : Prop where
  default : TokenId.default < l.nextAvailableToken
  used : ∀ x, l.find x ≠ none → x.tokenId < l.nextAvailableToken

/-- A ledger that the writes of a transaction have made of `l₀`, except for the
next available token. -/
structure Undoing (l₀ l : PlainLedger F VK) (new : List AccountId) : Prop where
  grown : Accounts.Grown l₀.toAccounts l.toAccounts new
  next : l.nextAvailableToken = l₀.nextAvailableToken

namespace Undoing

variable {l₀ l : PlainLedger F VK} {new : List AccountId} {a : Account F VK}

theorem refl (l : PlainLedger F VK) : Undoing l l [] := ⟨.refl _, rfl⟩

theorem next_write {l : PlainLedger F VK} (h : a.tokenId < l.nextAvailableToken) :
    (l.write a).nextAvailableToken = l.nextAvailableToken := if_neg (not_le.2 h)

theorem write_found (h : Undoing l₀ l new) (ha : l.find a.identifier ≠ none)
    (htoken : a.tokenId < l₀.nextAvailableToken) : Undoing l₀ (l.write a) new where
  grown := h.grown.put_found ha
  next := by rw [next_write (h.next ▸ htoken), h.next]

theorem write_new (h : Undoing l₀ l new) (ha : l.find a.identifier = none)
    (htoken : a.tokenId < l₀.nextAvailableToken) : Undoing l₀ (l.write a) (new ++ [a.identifier]) where
  grown := h.grown.put_new ha
  next := by rw [next_write (h.next ▸ htoken), h.next]

/-- Whether or not the account is there. -/
theorem write (h : Undoing l₀ l new) (htoken : a.tokenId < l₀.nextAvailableToken) :
    Undoing l₀ (l.write a) (new ++ l.emptys a.identifier) := by
  rw [PlainLedger.emptys]
  split
  next hnew => exact h.write_new hnew htoken
  next hfound =>
    rw [List.append_nil]
    exact h.write_found hfound htoken

theorem eq (h : Undoing l₀ l []) (hfind : ∀ x, l₀.find x ≠ none → l.find x = l₀.find x) : l = l₀ := by
  have haccounts := h.grown.remove hfind
  rw [Accounts.remove_nil, Option.some.injEq] at haccounts
  cases l
  cases l₀
  rw [PlainLedger.mk.injEq]
  exact ⟨haccounts, h.next⟩

variable [ChainHashes F] [LedgerHash F VK Hash]

theorem run_remove (h : Accounts.Grown l₀.toAccounts l.toAccounts new)
    (hfind : ∀ x, l₀.find x ≠ none → l.find x = l₀.find x) :
    (removeAccountsExn new : LedgerM (PlainLedger F VK) Unit).run l =
      (.ok (), { l₀ with nextAvailableToken := l.nextAvailableToken }) := by
  change PlainLedger.removeAccountsExn new l = _
  rw [PlainLedger.removeAccountsExn, h.remove hfind]

theorem remove (h : Undoing l₀ l new) (hfind : ∀ x, l₀.find x ≠ none → l.find x = l₀.find x) :
    (removeAccountsExn new : LedgerM (PlainLedger F VK) Unit).run l = (.ok (), l₀) := by
  rw [run_remove h.grown hfind, h.next]

end Undoing

section Runs

variable [ChainHashes F] [LedgerHash F VK Hash]

omit [ChainHashes F] [LedgerHash F VK Hash] in
theorem PlainLedger.Available.write {l : PlainLedger F VK} {a : Account F VK} (h : l.Available)
    (htoken : a.tokenId < l.nextAvailableToken) : (l.write a).Available := by
  have hnext := Undoing.next_write htoken
  refine ⟨by rw [hnext]; exact h.default, fun x hx => ?_⟩
  rw [hnext]
  rw [find_write] at hx
  split at hx
  next heq => rw [heq]; exact htoken
  next => exact h.used x hx

omit [LedgerHash F VK Hash] in
/-- The token of an account that has been created is the default one, or used by
its owner. -/
theorem AccountCreated.token_lt {fee : Fee} {slot : GlobalSlot} {l : PlainLedger F VK} {feePayer source receiver : AccountId} {a f r s : Account F VK}
    (h : AccountCreated fee slot l.toAccounts feePayer source receiver a f r s) (havailable : l.Available)
    (hfeePayer : feePayer.tokenId = TokenId.default) (htoken : receiver.tokenId = source.tokenId) :
    source.tokenId < l.nextAvailableToken := by
  by_cases hsr : source = receiver
  · rw [← htoken, h.token hsr]
    exact havailable.default
  · by_cases hsf : source = feePayer
    · rw [hsf, hfeePayer]
      exact havailable.default
    · exact havailable.used source (h.found hsr hsf)

/-- An account that is there is located, and written where it is. -/
theorem locate_of_find {l : PlainLedger F VK} {accountId : AccountId} {a : Account F VK} (tag : String)
    (h : l.find accountId = some a) :
    ∃ i, l.locationOfAccount accountId = some i ∧ locate l tag accountId = .ok (i, a) := by
  obtain ⟨i, hi, -⟩ := Accounts.location_of_find h
  exact ⟨i, hi, PlainLedger.locate_eq_ok.2 ⟨hi, h⟩⟩

/-! ## The fee -/

/-- The fee payer with the fee back. -/
def refund (u : SignedCommandApplied F) (x : Account F VK) (balance : Balance) : Account F VK :=
  { x with
    balance
    nonce := u.common.userCommand.data.nonce
    receiptChainHash := u.common.previousReceiptChainHash
    timing := u.common.feePayerTiming }

theorem undoUserCommand_run (fee : Fee) {u : SignedCommandApplied F} {c : SignedCommand} {l : PlainLedger F VK}
    {x : Account F VK} {b : Balance} (hdata : u.common.userCommand.data = c) (hx : l.find c.feePayer = some x)
    (hnonce : x.nonce = c.nonce.succ) (hb : b.val = x.balance.val + c.fee.val) :
    ∃ i, l.locationOfAccount c.feePayer = some i ∧
      (undoUserCommand fee u).run l = (undoBody fee u i (refund u x b)).run (l.write (refund u x b)) := by
  subst hdata
  obtain ⟨i, hi, hlocate⟩ := locate_of_find "fee payer" hx
  have hid : (refund u x b).identifier = u.common.userCommand.data.feePayer := by
    rw [← Accounts.identifier_of_find hx]
    rfl
  have hundo : undoFeePayer l u = .ok (i, refund u x b) :=
    bind_eq_ok.2 ⟨(i, x), hlocate, bind_eq_ok.2 ⟨(), check_eq_ok.2 (decide_eq_true hnonce),
      bind_eq_ok.2 ⟨b, addAmount_eq_ok.2 hb, rfl⟩⟩⟩
  refine ⟨i, hi, ?_⟩
  rw [undoUserCommand, run_reads_bind, id_eq, run_orRaise_bind hundo]
  exact run_bind_of_ok (PlainLedger.run_set (hid ▸ hi))

/-! ## The bodies -/

section Bodies

variable {fee : Fee} {u : SignedCommandApplied F} {c : SignedCommand} {l : PlainLedger F VK} {i : Location}
  {y : Account F VK} {source receiver : AccountId} {t : Option Timing}

theorem undoSource_ok {j : Location} {r s : Account F VK} (hi : l.locationOfAccount receiver = some i)
    (hj : l.locationOfAccount source = some j) (hs : l.find source = some s) :
    undoSource l source receiver (i, r) = .ok (j, if source = receiver then r else s) := by
  rw [undoSource]
  split
  next heq =>
    rw [heq, hi, Option.some.injEq] at hj
    rw [hj]
  next => exact PlainLedger.locate_eq_ok.2 ⟨hj, hs⟩

/-- A payment is taken back. -/
theorem undoPayment_ok {amount : Amount} {r s r' : Account F VK} {b : Balance} (hr : l.find receiver = some r)
    (hs : l.find source = some s) (hr' : r' = { r with balance := (Currency.sub r.balance amount).getD 0 })
    (hb : b.val = (if source = receiver then r' else s).balance.val + amount.val) :
    ∃ i j, l.locationOfAccount receiver = some i ∧ l.locationOfAccount source = some j ∧
      undoPayment l source receiver t amount = .ok ((i, r'), (j,
        { (if source = receiver then r' else s) with
          balance := b
          timing := t.getD (if source = receiver then r' else s).timing })) := by
  subst hr'
  obtain ⟨i, hi, hlocate⟩ := locate_of_find "receiver" hr
  obtain ⟨j, hj, -⟩ := locate_of_find "source" hs
  refine ⟨i, j, hi, hj, ?_⟩
  exact bind_eq_ok.2 ⟨(i, r), hlocate, bind_eq_ok.2 ⟨_, undoSource_ok hi hj hs,
    bind_eq_ok.2 ⟨b, addAmount_eq_ok.2 hb, rfl⟩⟩⟩

/-- So are minted tokens. -/
theorem undoMintTokens_ok {amount : Amount} {r s r' : Account F VK} {b : Balance} (hr : l.find receiver = some r)
    (hs : l.find source = some s) (hb : b.val + amount.val = r.balance.val) (hr' : r' = { r with balance := b }) :
    ∃ i j, l.locationOfAccount receiver = some i ∧ l.locationOfAccount source = some j ∧
      undoMintTokens l source receiver t amount = .ok ((i, r'), (j,
        { (if source = receiver then r' else s) with
          timing := t.getD (if source = receiver then r' else s).timing })) := by
  subst hr'
  obtain ⟨i, hi, hlocate⟩ := locate_of_find "receiver" hr
  obtain ⟨j, hj, -⟩ := locate_of_find "source" hs
  have hsub : Currency.sub r.balance amount = some b := Currency.sub_eq_some.2 (by omega)
  refine ⟨i, j, hi, hj, bind_eq_ok.2 ⟨(i, r), hlocate, ?_⟩⟩
  dsimp only
  rw [hsub]
  exact bind_eq_ok.2 ⟨_, undoSource_ok hi hj hs, rfl⟩

/-- The charge for a new account is given back. -/
theorem undoCreateAccount_ok (fee : Fee) (feePayer : AccountId) {s y' : Account F VK} {b : Balance}
    (hs : l.find source = some s) (hb : b.val = y.balance.val + fee.val) (hy' : y' = { y with balance := b }) :
    ∃ j, l.locationOfAccount source = some j ∧
      undoCreateAccount fee l feePayer source y t = .ok (y', (j,
        { (if feePayer = source then y' else s) with
          timing := t.getD (if feePayer = source then y' else s).timing })) := by
  subst hy'
  obtain ⟨j, hj, hget⟩ := Accounts.find_eq_some.1 hs
  have hadd : Currency.add y.balance fee = some b := Currency.add_eq_some.2 hb
  refine ⟨j, hj, ?_⟩
  rw [undoCreateAccount, hadd]
  have hsource : undoSourceAccount l feePayer source { y with balance := b } j =
      .ok (if feePayer = source then { y with balance := b } else s) := by
    rw [undoSourceAccount]
    split
    next => rfl
    next => exact errorOpt_eq_ok.2 hget
  exact bind_eq_ok.2 ⟨j, errorOpt_eq_ok.2 hj, bind_eq_ok.2 ⟨_, hsource, rfl⟩⟩

/-- The timing that the source gets back. -/
def sourceTimingBefore (u : SignedCommandApplied F) (c : SignedCommand) (source : AccountId) : Option Timing :=
  if c.feePayer = source then some u.common.feePayerTiming else u.common.sourceTiming

theorem undoBody_failed (hbody : u.body = .failed) : (undoBody fee u i y).run l = (.ok (), l) := by
  rw [undoBody, run_reads_bind]
  simp only [hbody]
  rfl

theorem undoBody_stakeDelegation {previousDelegate : Option PublicKey} {delegator newDelegate : PublicKey}
    {r : Location × Account F VK} (hdata : u.common.userCommand.data = c)
    (hbody : u.body = .stakeDelegation previousDelegate) (hc : c.payload.body = .stakeDelegation delegator newDelegate)
    (hsource : source = ⟨delegator, TokenId.default⟩)
    (hundo : undoStakeDelegation l source (sourceTimingBefore u c source) previousDelegate = .ok r) :
    (undoBody fee u i y).run l = (set r.1 r.2 : LedgerM (PlainLedger F VK) Unit).run l := by
  subst hdata hsource
  rw [undoBody, run_reads_bind]
  simp only [hbody, SignedCommand.source, hc, Body.source, id_eq]
  exact run_bind_of_ok (by rw [run_orRaise]; exact congrArg (·, l) hundo)

theorem undoBody_payment {emptys : List AccountId} {p : PaymentPayload}
    {r : (Location × Account F VK) × (Location × Account F VK)} (hdata : u.common.userCommand.data = c)
    (hbody : u.body = .payment emptys) (hc : c.payload.body = .payment p)
    (hsource : source = ⟨p.sourcePk, p.tokenId⟩) (hreceiver : receiver = ⟨p.receiverPk, p.tokenId⟩)
    (hundo : undoPayment l source receiver (sourceTimingBefore u c source) p.amount = .ok r) :
    (undoBody fee u i y).run l = (set r.1.1 r.1.2 >>= fun _ => set r.2.1 r.2.2 >>= fun _ => removeAccountsExn emptys :
      LedgerM (PlainLedger F VK) Unit).run l := by
  subst hdata hsource hreceiver
  rw [undoBody, run_reads_bind]
  simp only [hbody, SignedCommand.source, SignedCommand.receiver, hc, Body.source, Body.receiver, id_eq]
  exact run_bind_of_ok (by rw [run_orRaise]; exact congrArg (·, l) hundo)

theorem undoBody_mintTokens {p : MintingPayload}
    {r : (Location × Account F VK) × (Location × Account F VK)} (hdata : u.common.userCommand.data = c)
    (hbody : u.body = .mintTokens) (hc : c.payload.body = .mintTokens p)
    (hsource : source = ⟨p.tokenOwnerPk, p.tokenId⟩) (hreceiver : receiver = ⟨p.receiverPk, p.tokenId⟩)
    (hundo : undoMintTokens l source receiver (sourceTimingBefore u c source) p.amount = .ok r) :
    (undoBody fee u i y).run l = (set r.1.1 r.1.2 >>= fun _ => set r.2.1 r.2.2 :
      LedgerM (PlainLedger F VK) Unit).run l := by
  subst hdata hsource hreceiver
  rw [undoBody, run_reads_bind]
  simp only [hbody, SignedCommand.source, SignedCommand.receiver, hc, Body.source, Body.receiver, id_eq]
  exact run_bind_of_ok (by rw [run_orRaise]; exact congrArg (·, l) hundo)

theorem undoBody_createNewToken {token : TokenId} {p : NewTokenPayload}
    {r : Account F VK × (Location × Account F VK)} (hdata : u.common.userCommand.data = c)
    (hbody : u.body = .createNewToken token) (hc : c.payload.body = .createNewToken p)
    (hreceiver : receiver = ⟨p.tokenOwnerPk, token⟩)
    (hundo : undoCreateAccount fee l c.feePayer receiver y (sourceTimingBefore u c receiver) = .ok r) :
    (undoBody fee u i y).run l = (set i r.1 >>= fun _ => set r.2.1 r.2.2 >>= fun _ =>
      removeAccountsExn [receiver] >>= fun _ => setNextAvailableToken token :
      LedgerM (PlainLedger F VK) Unit).run l := by
  subst hdata hreceiver
  rw [undoBody, run_reads_bind]
  simp only [hbody, SignedCommand.source, SignedCommand.receiver, hc, Body.source, Body.receiver, id_eq]
  exact run_bind_of_ok (by rw [run_orRaise]; exact congrArg (·, l) hundo)

theorem undoBody_createTokenAccount {p : NewAccountPayload}
    {r : Account F VK × (Location × Account F VK)} (hdata : u.common.userCommand.data = c)
    (hbody : u.body = .createTokenAccount) (hc : c.payload.body = .createTokenAccount p)
    (hsource : source = ⟨p.tokenOwnerPk, p.tokenId⟩) (hreceiver : receiver = ⟨p.receiverPk, p.tokenId⟩)
    (hundo : undoCreateAccount fee l c.feePayer source y (sourceTimingBefore u c source) = .ok r) :
    (undoBody fee u i y).run l = (set i r.1 >>= fun _ => set r.2.1 r.2.2 >>= fun _ =>
      removeAccountsExn [receiver] >>= fun _ => setNextAvailableToken l.nextAvailableToken :
      LedgerM (PlainLedger F VK) Unit).run l := by
  subst hdata hsource hreceiver
  rw [undoBody, run_reads_bind]
  simp only [hbody, SignedCommand.source, SignedCommand.receiver, hc, Body.source, Body.receiver, id_eq]
  exact run_bind_of_ok (by rw [run_orRaise]; exact congrArg (·, l) hundo)

end Bodies

/-! ## Commands -/

namespace PlainLedger

omit [ChainHashes F] [LedgerHash F VK Hash] in
theorem found_write {l : PlainLedger F VK} {x : AccountId} (a : Account F VK) (h : l.find x ≠ none) :
    (l.write a).find x ≠ none := by
  rw [find_write]
  split
  · exact Option.some_ne_none a
  · exact h

omit [ChainHashes F] [LedgerHash F VK Hash] in
theorem found_write_self {l : PlainLedger F VK} {a : Account F VK} {x : AccountId} (h : a.identifier = x) :
    (l.write a).find x ≠ none := by
  rw [find_write, if_pos h.symm]
  exact Option.some_ne_none a

theorem run_set_bind {l : PlainLedger F VK} {a : Account F VK} {i : Location} {β : Type}
    {k : Unit → LedgerM (PlainLedger F VK) β} (h : l.locationOfAccount a.identifier = some i) :
    (set i a >>= k).run l = (k ()).run (l.write a) := run_bind_of_ok (run_set h)

/-- Two accounts that are there are written in turn. -/
theorem run_set_set {l : PlainLedger F VK} {a b : Account F VK} {i j : Location} {β : Type}
    {k : Unit → LedgerM (PlainLedger F VK) β} (hi : l.locationOfAccount a.identifier = some i)
    (hj : l.locationOfAccount b.identifier = some j) :
    (set i a >>= fun _ => set j b >>= k).run l = (k ()).run ((l.write a).write b) := by
  have hfound : l.find a.identifier ≠ none := by
    rw [ne_eq, Accounts.find_eq_none, hi]
    exact Option.some_ne_none i
  rw [run_set_bind hi, run_set_bind (by rw [locationOfAccount_write a (.inr hfound), hj])]

omit [LedgerHash F VK Hash] in
theorem find_eq_account {l : PlainLedger F VK} {x : AccountId} (h : l.find x ≠ none) :
    l.find x = some (l.account x) := by
  obtain ⟨a, ha⟩ := Option.ne_none_iff_exists'.1 h
  rw [ha, Accounts.account_of_find ha]

end PlainLedger

open PlainLedger

/-- A command whose fee has been charged: what there was before, and what has
been recorded. -/
structure FeeCharged (slot : GlobalSlot) (c : SignedCommand) (u : SignedCommandApplied F) (l₀ : PlainLedger F VK)
    (a a' : Account F VK) : Prop where
  available : l₀.Available
  found : l₀.find c.feePayer = some a
  charged : Charged slot c a a'
  data : u.common.userCommand.data = c
  chainHash : u.common.previousReceiptChainHash = a.receiptChainHash
  timing : u.common.feePayerTiming = a.timing

namespace FeeCharged

variable {slot : GlobalSlot} {c : SignedCommand} {u : SignedCommandApplied F} {l₀ : PlainLedger F VK}
  {a a' : Account F VK}

section

omit [LedgerHash F VK Hash]

theorem found_ne_none (h : FeeCharged slot c u l₀ a a') : l₀.find c.feePayer ≠ none := by
  rw [h.found]
  exact Option.some_ne_none a

theorem account_eq (h : FeeCharged slot c u l₀ a a') : l₀.account c.feePayer = a := Accounts.account_of_find h.found

theorem identifier (h : FeeCharged slot c u l₀ a a') : a.identifier = c.feePayer := Accounts.identifier_of_find h.found

theorem identifier' (h : FeeCharged slot c u l₀ a a') : a'.identifier = c.feePayer :=
  h.charged.identifier.trans h.identifier

theorem token_lt (h : FeeCharged slot c u l₀ a a') {x : Account F VK} (hx : x.identifier = c.feePayer) :
    x.tokenId < l₀.nextAvailableToken := by
  have htoken : x.tokenId = TokenId.default := (congrArg AccountId.tokenId hx).trans h.charged.token
  rw [htoken]
  exact h.available.default

theorem undoing (h : FeeCharged slot c u l₀ a a') : Undoing l₀ (l₀.write a') [] :=
  (Undoing.refl l₀).write_found (h.identifier' ▸ h.found_ne_none) (h.token_lt h.identifier')

/-- The charge creates no account. -/
theorem find_eq_none (h : FeeCharged slot c u l₀ a a') {x : AccountId} :
    (l₀.write a').find x = none ↔ l₀.find x = none := by
  rw [find_write, h.identifier']
  split
  next heq =>
    subst heq
    simp [h.found]
  next => rfl

theorem account (h : FeeCharged slot c u l₀ a a') (x : AccountId) :
    (l₀.write a').account x = if x = c.feePayer then a' else l₀.account x := by
  rw [account_write, h.identifier']

/-- The fee payer with the fee back, if the command has kept the rest. -/
theorem refund_eq (h : FeeCharged slot c u l₀ a a') {x : Account F VK} {b : Balance}
    (hx : x = { a' with balance := x.balance, delegate := x.delegate, timing := x.timing }) :
    refund u x b = { a with balance := b, delegate := x.delegate } := by
  rw [refund, hx, h.charged.account, h.data, h.chainHash, h.timing, ← h.charged.nonce]

theorem refund_charged (h : FeeCharged slot c u l₀ a a') : refund u a' a.balance = a := by
  rw [h.refund_eq rfl, h.charged.account]

end

/-- A command that has failed. -/
theorem undo_failed {fee : Fee} (h : FeeCharged slot c u l₀ a a') (hbody : u.body = .failed) :
    (undoUserCommand fee u).run (l₀.write a') = (.ok (), l₀) := by
  have hx : (l₀.write a').find c.feePayer = some a' := by rw [find_write, if_pos h.identifier'.symm]
  obtain ⟨i, -, hrun⟩ := undoUserCommand_run fee h.data hx (by rw [h.charged.account]) h.charged.balance.symm
  rw [hrun, undoBody_failed hbody, h.refund_charged]
  have hundoing : Undoing l₀ ((l₀.write a').write a) [] :=
    h.undoing.write_found (PlainLedger.found_write_self (h.charged.identifier)) (h.token_lt h.identifier)
  rw [hundoing.eq fun x _ => ?_]
  rw [find_write, find_write, h.identifier, h.identifier']
  split
  next heq => rw [heq, h.found]
  next => rfl

section

omit [LedgerHash F VK Hash]

variable {source receiver : AccountId} {r s y r' s' : Account F VK}

/-- The receiver, the source and the fee payer are written, and then again when
the command is undone. -/
theorem undoing_writes (h : FeeCharged slot c u l₀ a a') (hr : r.identifier = receiver) (hs : s.identifier = source)
    (hy : y.identifier = c.feePayer) (hr' : r'.identifier = receiver) (hs' : s'.identifier = source)
    (hsource : l₀.find source ≠ none) (htoken : receiver.tokenId = source.tokenId) :
    Undoing l₀ ((((((l₀.write a').write r).write s).write y).write r').write s')
      (if l₀.find receiver = none then [receiver] else []) := by
  have hused := h.available.used source hsource
  have hlt {z : Account F VK} {x : AccountId} (hz : z.identifier = x) (hx : x.tokenId = source.tokenId) :
      z.tokenId < l₀.nextAvailableToken := by
    have hztoken : z.tokenId = source.tokenId := (congrArg AccountId.tokenId hz).trans hx
    rw [hztoken]
    exact hused
  have hwrite := h.undoing.write (hlt hr htoken)
  simp only [hr, PlainLedger.emptys, h.find_eq_none, List.nil_append] at hwrite
  have hfound := found_write r (found_write a' hsource)
  have hfeePayer := found_write s (found_write r (found_write a' h.found_ne_none))
  have hreceiver := found_write y (found_write s (found_write_self (l := l₀.write a') hr))
  have hwrite_s := hwrite.write_found (by rw [hs]; exact hfound) (hlt hs rfl)
  have hwrite_y := hwrite_s.write_found (by rw [hy]; exact hfeePayer) (h.token_lt hy)
  have hwrite_r' := hwrite_y.write_found (by rw [hr']; exact hreceiver) (hlt hr' htoken)
  exact hwrite_r'.write_found (by rw [hs']; exact found_write r' (found_write y (found_write s hfound))) (hlt hs' rfl)

/-- What is found after the six writes, when the last ones restore the
accounts that were there. -/
theorem find_writes (h : FeeCharged slot c u l₀ a a') (hr : r.identifier = receiver) (hs : s.identifier = source)
    (hy : y.identifier = c.feePayer) (hr' : r'.identifier = receiver) (hs' : s'.identifier = source)
    (hsource : s' = l₀.account source) (hreceiver : receiver ≠ source → l₀.find receiver ≠ none → r' = l₀.account receiver)
    (hfeePayer : c.feePayer ≠ source → c.feePayer ≠ receiver → y = a) (x : AccountId) (hx : l₀.find x ≠ none) :
    ((((((l₀.write a').write r).write s).write y).write r').write s').find x = l₀.find x := by
  rw [find_write, hs', find_write, hr', find_write, hy, find_write, hs, find_write, hr, find_write, h.identifier']
  by_cases hxs : x = source
  · rw [if_pos hxs, hsource, ← hxs, find_eq_account hx]
  · rw [if_neg hxs]
    by_cases hxr : x = receiver
    · rw [if_pos hxr, hreceiver (hxr ▸ hxs) (hxr ▸ hx), ← hxr, find_eq_account hx]
    · rw [if_neg hxr]
      by_cases hxf : x = c.feePayer
      · rw [if_pos hxf, hfeePayer (hxf ▸ hxs) (hxf ▸ hxr), hxf, h.found]
      · rw [if_neg hxf, if_neg hxs, if_neg hxr, if_neg hxf]

end

omit [ChainHashes F] [LedgerHash F VK Hash] in
theorem sub_getD {b m x : Balance} (h : b.val + m.val = x.val) : (Currency.sub x m).getD 0 = b := by
  have hsub : Currency.sub x m = some b := Currency.sub_eq_some.2 (by omega)
  rw [hsub]
  rfl

variable {fee : Fee} {source receiver : AccountId} {r s y x z r' s' : Account F VK} {i : Location}

/-- What is left of undoing a payment once the fee is back. -/
theorem undo_payment_body {p : PaymentPayload} {b : Balance} (h : FeeCharged slot c u l₀ a a')
    (hbody : u.body = .payment (if (l₀.write a').find receiver = none then [receiver] else []))
    (hc : c.payload.body = .payment p) (hsource : source = ⟨p.sourcePk, p.tokenId⟩)
    (hreceiver : receiver = ⟨p.receiverPk, p.tokenId⟩)
    (hpaid : Paid fee slot (l₀.write a').toAccounts source receiver p.amount r s) (hy : y.identifier = c.feePayer)
    (hx : ((((l₀.write a').write r).write s).write y).find receiver = some x)
    (hz : ((((l₀.write a').write r).write s).write y).find source = some z)
    (hr' : r' = { x with balance := (Currency.sub x.balance p.amount).getD 0 })
    (hb : b.val = (if source = receiver then r' else z).balance.val + p.amount.val)
    (hs' : { (if source = receiver then r' else z) with
      balance := b
      timing := (sourceTimingBefore u c source).getD (if source = receiver then r' else z).timing } = l₀.account source)
    (hold : receiver ≠ source → l₀.find receiver ≠ none → r' = l₀.account receiver)
    (hfeePayer : c.feePayer ≠ source → c.feePayer ≠ receiver → y = a) :
    (undoBody fee u i y).run ((((l₀.write a').write r).write s).write y) = (.ok (), l₀) := by
  have hfsource : l₀.find source ≠ none := fun hnone => hpaid.found (h.find_eq_none.2 hnone)
  obtain ⟨j, k, hj, hk, hundo⟩ := undoPayment_ok (t := sourceTimingBefore u c source) hx hz hr' hb
  rw [undoBody_payment h.data hbody hc hsource hreceiver hundo]
  have hidr : r'.identifier = receiver := by
    rw [hr', ← Accounts.identifier_of_find hx]
    rfl
  have hids : (l₀.account source).identifier = source := Accounts.identifier_account l₀.toAccounts source
  dsimp only
  rw [hs', run_set_set (hidr ▸ hj) (hids.symm ▸ hk)]
  have hundoing := h.undoing_writes hpaid.identifier_receiver hpaid.identifier_source hy hidr hids hfsource
    (by rw [hreceiver, hsource])
  simp only [h.find_eq_none]
  exact hundoing.remove (h.find_writes hpaid.identifier_receiver hpaid.identifier_source hy hidr hids rfl hold hfeePayer)

/-- A payment. -/
theorem undo_payment {p : PaymentPayload} (h : FeeCharged slot c u l₀ a a')
    (hbody : u.body = .payment (if (l₀.write a').find receiver = none then [receiver] else []))
    (hc : c.payload.body = .payment p) (hsource : source = ⟨p.sourcePk, p.tokenId⟩)
    (hreceiver : receiver = ⟨p.receiverPk, p.tokenId⟩) (hsigned : c.feePayerPk = c.sourcePk)
    (htiming : u.common.sourceTiming = some ((l₀.write a').account source).timing)
    (hpaid : Paid fee slot (l₀.write a').toAccounts source receiver p.amount r s) :
    (undoUserCommand fee u).run (((l₀.write a').write r).write s) = (.ok (), l₀) := by
  have hr := hpaid.identifier_receiver
  have hs := hpaid.identifier_source
  have hcharged := h.charged.balance
  have henough := hpaid.enough
  have hafter := hpaid.sourceAfter
  have hpk : c.feePayer.publicKey = source.publicKey := by
    rw [hsource]
    exact hsigned.trans (by rw [SignedCommand.sourcePk, hc]; rfl)
  have hfr : c.feePayer = receiver → c.feePayer = source := by
    intro heq
    rw [AccountId.mk.injEq]
    exact ⟨hpk, by rw [heq, hreceiver, hsource]⟩
  have hnonce : a'.nonce = c.nonce.succ := by rw [h.charged.account]
  have hx : (((l₀.write a').write r).write s).find c.feePayer = some (if c.feePayer = source then s else a') := by
    rw [find_write, hs, find_write, hr, find_write, h.identifier']
    by_cases heq : c.feePayer = source
    · rw [if_pos heq, if_pos heq]
    · rw [if_neg heq, if_neg heq, if_neg fun hreceiver => heq (hfr hreceiver), if_pos rfl]
  have hrf (hne : receiver ≠ source) : receiver ≠ c.feePayer := fun heq => hne (heq.trans (hfr heq.symm))
  -- A receiver that was there and is another account gets its balance back.
  have hold : receiver ≠ source → l₀.find receiver ≠ none →
      { r with balance := (Currency.sub r.balance p.amount).getD 0 } = l₀.account receiver := by
    intro hne hfound
    have hreceived := hpaid.received
    have hrafter := hpaid.receiverAfter
    rw [creationFee_of_found fun hnone => hfound (h.find_eq_none.1 hnone), h.account, if_neg (hrf hne)] at hreceived
    rw [h.account, if_neg (hrf hne)] at hrafter
    rw [sub_getD hreceived.symm, hrafter]
  by_cases hfs : c.feePayer = source
  · rw [if_pos hfs] at hx
    rw [h.account, if_pos hfs.symm] at henough hafter
    have hsource' : l₀.account source = a := by rw [← hfs, h.account_eq]
    have hsnonce : s.nonce = c.nonce.succ := by
      split at hafter <;> rw [hafter] <;> exact hnonce
    have hskept : s = { a' with balance := s.balance, delegate := s.delegate, timing := s.timing } := by
      split at hafter <;> rw [hafter]
    have hdelegate : s.delegate = a.delegate := by
      rw [show a.delegate = a'.delegate by rw [h.charged.account]]
      split at hafter <;> rw [hafter]
    by_cases hsr : source = receiver
    · rw [if_pos hsr] at hafter
      have hsbalance : a.balance.val = s.balance.val + c.fee.val := by rw [hafter]; exact hcharged.symm
      obtain ⟨i, -, hrun⟩ := undoUserCommand_run fee h.data hx hsnonce hsbalance
      have hy : refund u s a.balance = a := by rw [h.refund_eq hskept, hdelegate]
      have hfind : ((((l₀.write a').write r).write s).write a).find source = some a := by
        rw [find_write, if_pos (by rw [h.identifier, hfs])]
      obtain ⟨m, hm⟩ : ∃ m : Balance, m.val + p.amount.val = a.balance.val :=
        ⟨⟨a.balance.val - p.amount.val, by omega⟩, by dsimp only; omega⟩
      rw [hrun, hy]
      refine h.undo_payment_body hbody hc hsource hreceiver hpaid h.identifier (hsr ▸ hfind) hfind rfl
        (b := a.balance) ?_ ?_ (fun hne => absurd hsr.symm hne) (fun hne => absurd hfs hne)
      · rw [if_pos hsr, sub_getD hm]
        exact hm.symm
      · rw [if_pos hsr, hsource', sourceTimingBefore, if_pos hfs, h.timing]
        rfl
    · have hpaid' := hpaid.paid hsr
      rw [h.account, if_pos hfs.symm] at hpaid'
      have hlt := a.balance.isLt
      obtain ⟨b, hb⟩ : ∃ b : Balance, b.val = s.balance.val + c.fee.val := ⟨⟨s.balance.val + c.fee.val, by omega⟩, rfl⟩
      obtain ⟨i, -, hrun⟩ := undoUserCommand_run fee h.data hx hsnonce hb
      have hy : refund u s b = { a with balance := b } := by rw [h.refund_eq hskept, hdelegate]
      have hid : ({ a with balance := b } : Account F VK).identifier = c.feePayer := h.identifier
      have hne : receiver ≠ source := Ne.symm hsr
      rw [hrun, hy]
      refine h.undo_payment_body hbody hc hsource hreceiver hpaid hid (x := r) (z := { a with balance := b }) ?_ ?_
        rfl (b := a.balance) ?_ ?_ hold (fun hne => absurd hfs hne)
      · rw [find_write, if_neg (by rw [hid]; exact hrf hne), find_write, if_neg (by rw [hs]; exact hne), find_write,
          if_pos hr.symm]
      · rw [find_write, if_pos (by rw [hid, hfs])]
      · rw [if_neg hsr]
        dsimp only
        omega
      · rw [if_neg hsr, hsource', sourceTimingBefore, if_pos hfs, h.timing]
        rfl
  · rw [if_neg hfs] at hx
    obtain ⟨i, -, hrun⟩ := undoUserCommand_run fee h.data hx hnonce hcharged.symm
    have hsf : source ≠ c.feePayer := fun heq => hfs heq.symm
    rw [h.account, if_neg hsf] at henough hafter htiming
    have hfind : ((((l₀.write a').write r).write s).write a).find source = some s := by
      rw [find_write, if_neg (by rw [h.identifier]; exact hsf), find_write, if_pos hs.symm]
    rw [hrun, h.refund_charged]
    by_cases hsr : source = receiver
    · rw [if_pos hsr] at hafter
      have hsbalance : s.balance = (l₀.account source).balance := by rw [hafter]
      obtain ⟨m, hm⟩ : ∃ m : Balance, m.val + p.amount.val = s.balance.val :=
        ⟨⟨s.balance.val - p.amount.val, by omega⟩, by dsimp only; rw [hsbalance]; omega⟩
      refine h.undo_payment_body hbody hc hsource hreceiver hpaid h.identifier (hsr ▸ hfind) hfind rfl
        (b := s.balance) ?_ ?_ (fun hne => absurd hsr.symm hne) (fun _ _ => rfl)
      · rw [if_pos hsr, sub_getD hm]
        exact hm.symm
      · rw [if_pos hsr, sourceTimingBefore, if_neg hfs, htiming, hafter]
        rfl
    · have hpaid' := hpaid.paid hsr
      rw [if_neg hsr] at hafter
      rw [h.account, if_neg hsf] at hpaid'
      have hne : receiver ≠ source := Ne.symm hsr
      refine h.undo_payment_body hbody hc hsource hreceiver hpaid h.identifier (x := r) ?_ hfind rfl
        (b := (l₀.account source).balance) ?_ ?_ hold (fun _ _ => rfl)
      · rw [find_write, if_neg (by rw [h.identifier]; exact hrf hne), find_write, if_neg (by rw [hs]; exact hne),
          find_write, if_pos hr.symm]
      · rw [if_neg hsr]
        omega
      · rw [if_neg hsr, sourceTimingBefore, if_neg hfs, htiming, hafter]
        rfl

/-- A delegation, by the fee payer. -/
theorem undo_stakeDelegation {delegator newDelegate : PublicKey} (h : FeeCharged slot c u l₀ a a')
    (hbody : u.body = .stakeDelegation ((l₀.write a').account source).delegate)
    (hc : c.payload.body = .stakeDelegation delegator newDelegate) (hsource : source = ⟨delegator, TokenId.default⟩)
    (hsigned : c.feePayerPk = c.sourcePk)
    (hafter : s = { (l₀.write a').account source with delegate := s.delegate, timing := s.timing }) :
    (undoUserCommand fee u).run ((l₀.write a').write s) = (.ok (), l₀) := by
  have hfs : c.feePayer = source := by
    rw [hsource, AccountId.mk.injEq]
    exact ⟨hsigned.trans (by rw [SignedCommand.sourcePk, hc]; rfl), h.charged.token⟩
  rw [h.account, if_pos hfs.symm] at hbody hafter
  have hs : s.identifier = c.feePayer := by
    rw [hafter]
    exact h.identifier'
  have hx : ((l₀.write a').write s).find c.feePayer = some s := by rw [find_write, if_pos hs.symm]
  have hnonce : s.nonce = c.nonce.succ := by rw [hafter, h.charged.account]
  have hbalance : a.balance.val = s.balance.val + c.fee.val := by
    rw [hafter]
    exact h.charged.balance.symm
  obtain ⟨i, -, hrun⟩ := undoUserCommand_run fee h.data hx hnonce hbalance
  have hy : refund u s a.balance = { a with delegate := s.delegate } := h.refund_eq (by rw [hafter])
  have hid : ({ a with delegate := s.delegate } : Account F VK).identifier = c.feePayer := h.identifier
  obtain ⟨j, hj, hlocate⟩ := locate_of_find "source"
    (show (((l₀.write a').write s).write { a with delegate := s.delegate }).find source = some _ by
      rw [find_write, if_pos (by rw [hid, hfs])])
  have hundo : undoStakeDelegation (((l₀.write a').write s).write { a with delegate := s.delegate }) source
      (sourceTimingBefore u c source) a'.delegate = .ok (j, a) := by
    refine bind_eq_ok.2 ⟨_, hlocate, ?_⟩
    rw [sourceTimingBefore, if_pos hfs, h.timing, h.charged.account]
    rfl
  rw [hrun, hy, undoBody_stakeDelegation h.data hbody hc hsource hundo, run_set (by rw [h.identifier, hfs, hj])]
  have hfound : (l₀.write a').find c.feePayer ≠ none := found_write a' h.found_ne_none
  have hfound_s : ((l₀.write a').write s).find c.feePayer ≠ none := found_write s hfound
  have hwrite_s := h.undoing.write_found (by rw [hs]; exact hfound) (h.token_lt hs)
  have hwrite_y := hwrite_s.write_found (by rw [hid]; exact hfound_s) (h.token_lt hid)
  have hwrite_a := hwrite_y.write_found (by rw [h.identifier]; exact found_write _ hfound_s) (h.token_lt h.identifier)
  rw [hwrite_a.eq fun x _ => ?_]
  rw [find_write, find_write, find_write, find_write, hid, hs, h.identifier, h.identifier']
  split
  next heq => rw [heq, h.found]
  next => rfl

/-- Tokens minted. -/
theorem undo_mintTokens {p : MintingPayload} (h : FeeCharged slot c u l₀ a a') (hbody : u.body = .mintTokens)
    (hc : c.payload.body = .mintTokens p) (hsource : source = ⟨p.tokenOwnerPk, p.tokenId⟩)
    (hreceiver : receiver = ⟨p.receiverPk, p.tokenId⟩) (htoken : p.tokenId ≠ TokenId.default)
    (htiming : u.common.sourceTiming = some ((l₀.write a').account source).timing)
    (hminted : Minted slot (l₀.write a').toAccounts source receiver p.amount r s) :
    (undoUserCommand fee u).run (((l₀.write a').write r).write s) = (.ok (), l₀) := by
  have hr := hminted.identifier_receiver
  have hs := hminted.identifier_source
  have hne {x : AccountId} (hx : x.tokenId = p.tokenId) : x ≠ c.feePayer := fun heq =>
    htoken (hx.symm.trans ((congrArg AccountId.tokenId heq).trans h.charged.token))
  have hsf : source ≠ c.feePayer := hne (by rw [hsource])
  have hrf : receiver ≠ c.feePayer := hne (by rw [hreceiver])
  have hfsource : l₀.find source ≠ none := fun hnone => hminted.sourceFound (h.find_eq_none.2 hnone)
  have hfreceiver : l₀.find receiver ≠ none := fun hnone => hminted.receiverFound (h.find_eq_none.2 hnone)
  have hnonce : a'.nonce = c.nonce.succ := by rw [h.charged.account]
  have hreceived := hminted.received
  have hrafter := hminted.receiverAfter
  have hafter := hminted.sourceAfter
  rw [h.account, if_neg hrf] at hreceived hrafter
  rw [h.account, if_neg hsf] at hafter htiming
  have hx : (((l₀.write a').write r).write s).find c.feePayer = some a' := by
    rw [find_write, if_neg (by rw [hs]; exact hsf.symm), find_write, if_neg (by rw [hr]; exact hrf.symm), find_write,
      if_pos h.identifier'.symm]
  obtain ⟨i, -, hrun⟩ := undoUserCommand_run fee h.data hx hnonce h.charged.balance.symm
  rw [hrun, h.refund_charged]
  have hfind : ((((l₀.write a').write r).write s).write a).find source = some s := by
    rw [find_write, if_neg (by rw [h.identifier]; exact hsf), find_write, if_pos hs.symm]
  have hfind' : ((((l₀.write a').write r).write s).write a).find receiver = some (if source = receiver then s else r) := by
    rw [find_write, if_neg (by rw [h.identifier]; exact hrf), find_write, hs]
    by_cases heq : source = receiver
    · rw [if_pos heq.symm, if_pos heq]
    · rw [if_neg (Ne.symm heq), if_neg heq, find_write, if_pos hr.symm]
  -- The receiver gets its balance back.
  have hb : (l₀.account receiver).balance.val + p.amount.val = (if source = receiver then s else r).balance.val := by
    rw [← hreceived]
    split
    next heq => rw [hafter, if_pos heq]
    next => rfl
  obtain ⟨r', hr'⟩ : ∃ r', r' = { (if source = receiver then s else r) with
      balance := (l₀.account receiver).balance } := ⟨_, rfl⟩
  obtain ⟨j, k, hj, hk, hundo⟩ := undoMintTokens_ok (t := sourceTimingBefore u c source) hfind' hfind hb hr'
  have hidr : r'.identifier = receiver := by
    have hid := Accounts.identifier_of_find hfind'
    rw [hr']
    exact hid
  have hids : (l₀.account source).identifier = source := Accounts.identifier_account l₀.toAccounts source
  have hold : receiver ≠ source → l₀.find receiver ≠ none → r' = l₀.account receiver := by
    intro hne _
    rw [hr', if_neg (Ne.symm hne), hrafter]
  have hs' : { (if source = receiver then r' else s) with
      timing := (sourceTimingBefore u c source).getD (if source = receiver then r' else s).timing } =
        l₀.account source := by
    rw [sourceTimingBefore, if_neg hsf.symm, htiming]
    by_cases heq : source = receiver
    · rw [if_pos heq, hr', if_pos heq, hafter, if_pos heq, hrafter, heq]
      rfl
    · rw [if_neg heq, hafter, if_neg heq]
      rfl
  rw [undoBody_mintTokens h.data hbody hc hsource hreceiver hundo, hs', run_set_bind (hidr ▸ hj)]
  have hfound' := found_write a (found_write s (found_write_self (l := l₀.write a') hr))
  dsimp only
  rw [run_set (by rw [hids, locationOfAccount_write r' (.inr (by rw [hidr]; exact hfound')), hk])]
  have hundoing := h.undoing_writes hr hs h.identifier hidr hids hfsource (by rw [hreceiver, hsource])
  rw [if_neg hfreceiver] at hundoing
  rw [hundoing.eq (h.find_writes hr hs h.identifier hidr hids rfl hold fun _ _ => rfl)]

/-- What is left of undoing the creation of an account once the fee is back,
on a ledger where the account of `receiver` is new. -/
theorem undo_created {l : PlainLedger F VK} {j : Location} {s' : Account F VK} (h : FeeCharged slot c u l₀ a a')
    (hgrown : Accounts.Grown l₀.toAccounts l.toAccounts [receiver])
    (hfind : ∀ x, x ≠ c.feePayer → x ≠ source → l₀.find x ≠ none → l.find x = l₀.find x)
    (hi : l.locationOfAccount c.feePayer = some i) (hj : l.locationOfAccount source = some j)
    (hs' : s'.identifier = source) (hold : l₀.find source ≠ none → s' = l₀.account source) :
    (set i a >>= fun _ => set j s' >>= fun _ => LedgerIntf.removeAccountsExn [receiver] >>= fun _ =>
      setNextAvailableToken l₀.nextAvailableToken : LedgerM (PlainLedger F VK) Unit).run l = (.ok (), l₀) := by
  rw [run_set_set (h.identifier.symm ▸ hi) (hs'.symm ▸ hj)]
  have hfound {x : AccountId} {k : Location} (hk : l.locationOfAccount x = some k) : l.find x ≠ none := by
    rw [ne_eq, Accounts.find_eq_none, hk]
    exact Option.some_ne_none k
  have hgrown_a : Accounts.Grown l₀.toAccounts (l.write a).toAccounts [receiver] :=
    hgrown.put_found (by rw [h.identifier]; exact hfound hi)
  have hgrown_s : Accounts.Grown l₀.toAccounts ((l.write a).write s').toAccounts [receiver] :=
    hgrown_a.put_found (by rw [hs']; exact found_write a (hfound hj))
  have hrestored : ∀ x, l₀.find x ≠ none → ((l.write a).write s').find x = l₀.find x := by
    intro x hx
    rw [find_write, hs', find_write, h.identifier]
    by_cases hxs : x = source
    · rw [if_pos hxs, hold (hxs ▸ hx), ← hxs, find_eq_account hx]
    · rw [if_neg hxs]
      by_cases hxf : x = c.feePayer
      · rw [if_pos hxf, hxf, h.found]
      · rw [if_neg hxf, hfind x hxf hxs hx]
  rw [run_bind_of_ok (Undoing.run_remove hgrown_s hrestored)]
  rfl

/-- A new token, whose owner is the receiver. -/
theorem undo_createNewToken {p : NewTokenPayload} {f : Account F VK} (h : FeeCharged slot c u l₀ a a')
    (hbody : u.body = .createNewToken (l₀.write a').nextAvailableToken) (hc : c.payload.body = .createNewToken p)
    (hreceiver : receiver = ⟨p.tokenOwnerPk, (l₀.write a').nextAvailableToken⟩)
    (hfeePayer : f = { a' with balance := f.balance, timing := f.timing })
    (hcharged : f.balance.val + fee.val = a'.balance.val) (hnew : (l₀.write a').find receiver = none)
    (hafter : r = { (l₀.write a').account receiver with tokenPermissions := r.tokenPermissions }) :
    (undoUserCommand fee u).run (((l₀.write a').write f).write r) = (.ok (), l₀) := by
  have hf : f.identifier = c.feePayer := by
    rw [hfeePayer]
    exact h.identifier'
  have hr : r.identifier = receiver := by
    rw [hafter]
    exact Accounts.identifier_account (l₀.write a').toAccounts receiver
  have hne : c.feePayer ≠ receiver := fun heq => h.found_ne_none (heq ▸ h.find_eq_none.1 hnew)
  have hnext : (l₀.write a').nextAvailableToken = l₀.nextAvailableToken := Undoing.next_write (h.token_lt h.identifier')
  have hbalance := h.charged.balance
  have hlt := a.balance.isLt
  obtain ⟨b, hb⟩ : ∃ b : Balance, b.val = f.balance.val + c.fee.val := ⟨⟨f.balance.val + c.fee.val, by omega⟩, rfl⟩
  have hx : (((l₀.write a').write f).write r).find c.feePayer = some f := by
    rw [find_write, if_neg (by rw [hr]; exact hne), find_write, if_pos hf.symm]
  have hnonce : f.nonce = c.nonce.succ := by rw [hfeePayer, h.charged.account]
  obtain ⟨i, hi, hrun⟩ := undoUserCommand_run fee h.data hx hnonce hb
  have hdelegate : f.delegate = a.delegate := by rw [hfeePayer, h.charged.account]
  have hy : refund u f b = { a with balance := b } := by rw [h.refund_eq (by rw [hfeePayer]), hdelegate]
  have hid : ({ a with balance := b } : Account F VK).identifier = c.feePayer := h.identifier
  rw [hrun, hy]
  have hfind : ((((l₀.write a').write f).write r).write { a with balance := b }).find receiver = some r := by
    rw [find_write, if_neg (by rw [hid]; exact hne.symm), find_write, if_pos hr.symm]
  obtain ⟨j, hj, hundo⟩ := undoCreateAccount_ok fee c.feePayer (y := { a with balance := b }) (b := a.balance)
    (t := sourceTimingBefore u c receiver) hfind (by dsimp only; omega) rfl
  rw [if_neg hne] at hundo
  rw [undoBody_createNewToken h.data hbody hc hreceiver hundo, hnext]
  have hfound := found_write f (found_write a' h.found_ne_none)
  have hfound' := found_write r hfound
  have hgrown : Accounts.Grown l₀.toAccounts
      ((((l₀.write a').write f).write r).write { a with balance := b }).toAccounts [receiver] := by
    have hgrown_f : Accounts.Grown l₀.toAccounts ((l₀.write a').write f).toAccounts [] :=
      h.undoing.grown.put_found (by rw [hf]; exact found_write a' h.found_ne_none)
    have hgrown_r : Accounts.Grown l₀.toAccounts (((l₀.write a').write f).write r).toAccounts [receiver] := by
      have := hgrown_f.put_new (a := r) (by
        rw [hr, find_write, if_neg (by rw [hf]; exact hne.symm), hnew])
      rwa [hr] at this
    exact hgrown_r.put_found (by rw [hid]; exact hfound')
  refine h.undo_created hgrown ?_ ?_ hj hr ?_
  · intro x hxf hxr hx
    rw [find_write, if_neg (by rw [hid]; exact hxf), find_write, if_neg (by rw [hr]; exact hxr), find_write,
      if_neg (by rw [hf]; exact hxf), find_write, if_neg (by rw [h.identifier']; exact hxf)]
  · rw [locationOfAccount_write _ (.inr (by rw [hid]; exact hfound')), hi]
  · intro hfreceiver
    exact absurd (h.find_eq_none.1 hnew) hfreceiver

/-- The ledger after the creation of a token account. -/
theorem undoing_created {f : Account F VK} (h : FeeCharged slot c u l₀ a a') (htoken : source.tokenId = receiver.tokenId)
    (hcreated : AccountCreated fee slot (l₀.write a').toAccounts c.feePayer source receiver a' f r s) :
    Undoing l₀ (if source = receiver then ((l₀.write a').write f).write s
      else (((l₀.write a').write r).write f).write s) [receiver] := by
  have hf : f.identifier = c.feePayer := hcreated.identifier_feePayer.trans h.identifier'
  have hr := hcreated.identifier_receiver
  have hs := hcreated.identifier_source h.identifier'
  have hfeePayer := found_write a' h.found_ne_none
  have hne : receiver ≠ c.feePayer := fun heq => hfeePayer (heq ▸ hcreated.new)
  have hused := hcreated.token_lt (h.available.write (h.token_lt h.identifier')) h.charged.token htoken.symm
  rw [Undoing.next_write (h.token_lt h.identifier'), htoken] at hused
  have hlt {z : Account F VK} {x : AccountId} (hz : z.identifier = x) (hx : x.tokenId = receiver.tokenId) :
      z.tokenId < l₀.nextAvailableToken := by
    have hztoken : z.tokenId = receiver.tokenId := (congrArg AccountId.tokenId hz).trans hx
    rw [hztoken]
    exact hused
  split
  next heq =>
    have hwrite_f := h.undoing.write_found (by rw [hf]; exact hfeePayer) (h.token_lt hf)
    have hnew : ((l₀.write a').write f).find s.identifier = none := by
      rw [hs, find_write, hf, heq, if_neg hne, hcreated.new]
    have hwrite_s := hwrite_f.write_new hnew (hlt hs htoken)
    rwa [hs, List.nil_append, heq] at hwrite_s
  next hsr =>
    have hwrite_r := h.undoing.write_new (by rw [hr]; exact hcreated.new) (hlt hr rfl)
    rw [hr, List.nil_append] at hwrite_r
    have hwrite_f := hwrite_r.write_found (by rw [hf]; exact found_write r hfeePayer) (h.token_lt hf)
    refine hwrite_f.write_found ?_ (hlt hs htoken)
    rw [hs]
    by_cases hsf : source = c.feePayer
    · rw [hsf]
      exact found_write_self hf
    · exact found_write f (found_write r (hcreated.found hsr hsf))

/-- A new account, paid for by the fee payer. -/
theorem undo_createTokenAccount {p : NewAccountPayload} {f : Account F VK} {l' : PlainLedger F VK}
    (h : FeeCharged slot c u l₀ a a') (hbody : u.body = .createTokenAccount) (hc : c.payload.body = .createTokenAccount p)
    (hsource : source = ⟨p.tokenOwnerPk, p.tokenId⟩) (hreceiver : receiver = ⟨p.receiverPk, p.tokenId⟩)
    (htiming : u.common.sourceTiming = some (if source = receiver then r else if source = c.feePayer then f
      else (l₀.write a').account source).timing)
    (hcreated : AccountCreated fee slot (l₀.write a').toAccounts c.feePayer source receiver a' f r s)
    (hl' : l' = if source = receiver then ((l₀.write a').write f).write s
      else (((l₀.write a').write r).write f).write s) :
    (undoUserCommand fee u).run l' = (.ok (), l₀) := by
  have hundoing := h.undoing_created (by rw [hsource, hreceiver]) hcreated
  rw [← hl'] at hundoing
  have hf : f.identifier = c.feePayer := hcreated.identifier_feePayer.trans h.identifier'
  have hr := hcreated.identifier_receiver
  have hs := hcreated.identifier_source h.identifier'
  have hafter := hcreated.sourceAfter
  have hne : receiver ≠ c.feePayer := fun heq => found_write a' h.found_ne_none (heq ▸ hcreated.new)
  have hfind (x : AccountId) (hx : x ≠ receiver ∨ source = receiver) : l'.find x =
      if x = source then some s else if x = c.feePayer then some f else l₀.find x := by
    have hrest : x ≠ c.feePayer → (l₀.write a').find x = l₀.find x := fun hxf => by
      rw [find_write, if_neg (by rw [h.identifier']; exact hxf)]
    rw [hl']
    split
    next heq =>
      rw [find_write, hs, find_write, hf]
      by_cases hxf : x = c.feePayer
      · simp only [if_pos hxf]
      · simp only [if_neg hxf, hrest hxf]
    next hsr =>
      rw [find_write, hs, find_write, hf, find_write, hr, if_neg (hx.resolve_right hsr)]
      by_cases hxf : x = c.feePayer
      · simp only [if_pos hxf]
      · simp only [if_neg hxf, hrest hxf]
  have hbalance := h.charged.balance
  have hcharged := hcreated.charged
  have hlt := a.balance.isLt
  obtain ⟨b, hb⟩ : ∃ b : Balance, b.val = f.balance.val + c.fee.val := ⟨⟨f.balance.val + c.fee.val, by omega⟩, rfl⟩
  -- The fee payer, which may be the source of the new account.
  obtain ⟨x, hx, hkept, hxbalance⟩ : ∃ x, l'.find c.feePayer = some x ∧
      x = { a' with balance := x.balance, delegate := a'.delegate, timing := x.timing } ∧ x.balance = f.balance := by
    rw [hfind c.feePayer (.inl hne.symm)]
    by_cases hfs : c.feePayer = source
    · rw [if_pos hfs]
      have hsr : source ≠ receiver := fun heq => hne (heq.symm.trans hfs.symm)
      rw [if_neg hsr, if_pos hfs.symm] at hafter
      exact ⟨s, rfl, by rw [hafter, hcreated.feePayerAfter], by rw [hafter]⟩
    · rw [if_neg hfs, if_pos rfl]
      exact ⟨f, rfl, by rw [hcreated.feePayerAfter], rfl⟩
  have hdelegate : x.delegate = a.delegate := by rw [hkept, h.charged.account]
  have hnonce : x.nonce = c.nonce.succ := by rw [hkept, h.charged.account]
  obtain ⟨i, hi, hrun⟩ := undoUserCommand_run fee h.data hx hnonce (hxbalance.symm ▸ hb)
  have hy : refund u x b = { a with balance := b } := by rw [h.refund_eq (by rw [hkept]), hdelegate]
  have hid : ({ a with balance := b } : Account F VK).identifier = c.feePayer := h.identifier
  have hfound : l'.find c.feePayer ≠ none := by
    rw [hx]
    exact Option.some_ne_none x
  have hundoing_y := hundoing.write_found (by rw [hid]; exact hfound) (h.token_lt hid)
  rw [hrun, hy]
  have hfind_source : (l'.write { a with balance := b }).find source =
      some (if source = c.feePayer then { a with balance := b } else s) := by
    rw [find_write, hid]
    split
    next => rfl
    next =>
      rw [hfind source (by by_cases hsr : source = receiver; exacts [.inr hsr, .inl hsr]), if_pos rfl]
  obtain ⟨j, hj, hundo⟩ := undoCreateAccount_ok fee c.feePayer (y := { a with balance := b }) (b := a.balance)
    (t := sourceTimingBefore u c source) hfind_source (by dsimp only; omega) rfl
  rw [undoBody_createTokenAccount h.data hbody hc hsource hreceiver hundo, hundoing_y.next]
  refine h.undo_created hundoing_y.grown ?_ ?_ hj ?_ ?_
  · intro x hxf hxs hx
    rw [find_write, if_neg (by rw [hid]; exact hxf), hfind x (.inl fun heq => hx (heq ▸ h.find_eq_none.1 hcreated.new)),
      if_neg hxs, if_neg hxf]
  · rw [locationOfAccount_write _ (.inr (by rw [hid]; exact hfound)), hi]
  · by_cases hfs : c.feePayer = source
    · rw [if_pos hfs, ← hfs]
      exact h.identifier
    · rw [if_neg hfs, if_neg (Ne.symm hfs)]
      exact hs
  · intro hfsource
    have hsr : source ≠ receiver := fun heq => hfsource (heq ▸ h.find_eq_none.1 hcreated.new)
    rw [if_neg hsr] at hafter htiming
    by_cases hfs : c.feePayer = source
    · rw [if_pos hfs, sourceTimingBefore, if_pos hfs, h.timing, ← hfs, h.account_eq]
      rfl
    · rw [if_neg (Ne.symm hfs), h.account, if_neg (Ne.symm hfs)] at hafter htiming
      rw [if_neg hfs, if_neg (Ne.symm hfs), sourceTimingBefore, if_neg hfs, htiming, hafter]
      rfl

/-- **A command is undone.** -/
theorem undo (h : FeeCharged slot c u l₀ a a') {l' : PlainLedger F VK}
    (heffect : CommandEffect fee slot c (l₀.write a') a' u.body u.common.sourceTiming l') :
    (undoUserCommand fee u).run l' = (.ok (), l₀) := by
  generalize hbody : u.body = body at heffect
  generalize htiming : u.common.sourceTiming = timing at heffect
  cases heffect with
  | failed => exact h.undo_failed hbody
  | stakeDelegation hc hsource hfound hafter hcovered hsigned =>
    exact h.undo_stakeDelegation hbody hc hsource hsigned hafter
  | payment hc hsource hreceiver hpaid hsigned =>
    exact h.undo_payment hbody hc hsource hreceiver hsigned htiming hpaid
  | createNewToken hc hreceiver hfeePayer hcharged hcovered hnew hafter =>
    exact h.undo_createNewToken hbody hc hreceiver hfeePayer hcharged hnew hafter
  | createTokenAccount hc hsource hreceiver hcreated =>
    exact h.undo_createTokenAccount hbody hc hsource hreceiver htiming hcreated rfl
  | mintTokens hc hsource hreceiver htoken hminted hsigned =>
    exact h.undo_mintTokens hbody hc hsource hreceiver htoken htiming hminted

end FeeCharged

end Runs

end Mina.TransactionLogic
