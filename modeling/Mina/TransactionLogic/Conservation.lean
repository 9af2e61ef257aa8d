/-
Transactions neither create nor lose currency: for every token, what the
accounts hold after a run and what the run has charged (the fees of the
commands and the fee for each new account, both of the default token) is what
they held before and what the run has issued (tokens minted, fees
transferred and coinbases).

The proof counts an account with its creation fee (`worth`), so that a write
changes the worth of the ledger by the difference of two balances.
-/
import Mina.TransactionLogic.Transactions
import Mina.StagedLedger.StagedLedger
import Mina.Base.FeeExcessFacts

namespace Mina.TransactionLogic

open LedgerIntf LedgerM

variable {F VK Hash : Type}

/-! ## Sums over the accounts -/

namespace Accounts

/-- The sum of a quantity over the accounts. -/
def sumOver (f : Account F VK → Nat) (l : Accounts F VK) : Nat := (l.slots.map fun slot => slot.elim 0 f).sum

/-- What the accounts hold of a token. -/
def total (token : TokenId) (l : Accounts F VK) : Nat :=
  l.sumOver fun a => if a.tokenId = token then a.balance.val else 0

def numAccounts (l : Accounts F VK) : Nat := l.sumOver fun _ => 1

theorem sum_map_set {α : Type} (f : α → Nat) {xs : List α} {i : Nat} (hi : i < xs.length) (x : α) :
    ((xs.set i x).map f).sum + f xs[i] = (xs.map f).sum + f x := by
  induction xs generalizing i with
  | nil => cases hi
  | cons y ys ih =>
    cases i with
    | zero =>
      simp only [List.set_cons_zero, List.map_cons, List.sum_cons, List.getElem_cons_zero]
      omega
    | succ i =>
      have := ih (Nat.lt_of_succ_lt_succ hi)
      simp only [List.set_cons_succ, List.map_cons, List.sum_cons, List.getElem_cons_succ]
      omega

/-- A write replaces the account of its id. -/
theorem sumOver_put (f : Account F VK → Nat) (l : Accounts F VK) (a : Account F VK) :
    (l.put a).sumOver f + (l.find a.identifier).elim 0 f = l.sumOver f + f a := by
  cases ha : l.find a.identifier with
  | none =>
    rw [put_of_new ha, sumOver, push, List.map_append, List.sum_append]
    simp [sumOver]
  | some b =>
    obtain ⟨i, hi, hslot, hlt⟩ := location_of_find ha
    rw [put_of_location hi]
    have := sum_map_set (fun slot => slot.elim 0 f) hlt (some a)
    rw [List.getElem?_eq_getElem hlt, Option.some.injEq] at hslot
    rw [hslot] at this
    exact this

end Accounts

namespace PlainLedger

variable [ChainHashes F]

/-- The balance of an account in a token. -/
def holding (token : TokenId) (a : Account F VK) : Nat := if a.tokenId = token then a.balance.val else 0

/-- What the accounts hold, and for the default token the fees for their
creation. -/
def worth (fee : Fee) (token : TokenId) (l : PlainLedger F VK) : Nat :=
  l.total token + if token = TokenId.default then fee.val * l.numAccounts else 0

theorem total_write (token : TokenId) (l : PlainLedger F VK) (a : Account F VK) :
    (l.write a).total token + holding token (l.account a.identifier) = l.total token + holding token a := by
  have h := Accounts.sumOver_put (holding token) l.toAccounts a
  have hfound : (l.find a.identifier).elim 0 (holding token) = holding token (l.account a.identifier) := by
    rw [Accounts.account]
    cases l.find a.identifier with
    | none => exact (ite_self 0).symm
    | some b => rfl
  rw [hfound] at h
  exact h

omit [ChainHashes F] in
theorem numAccounts_write (l : PlainLedger F VK) (a : Account F VK) :
    (l.write a).numAccounts = l.numAccounts + if l.find a.identifier = none then 1 else 0 := by
  have h := Accounts.sumOver_put (fun _ => 1) l.toAccounts a
  change (l.put a).sumOver _ = l.sumOver _ + _
  cases hfind : l.find a.identifier with
  | none =>
    rw [hfind] at h
    rw [if_pos rfl]
    exact h
  | some b =>
    rw [hfind] at h
    rw [if_neg (Option.some_ne_none b)]
    exact Nat.add_right_cancel h

omit [ChainHashes F] in
/-- An account of an id has the token of the id. -/
theorem holding_of_identifier {token : TokenId} {a : Account F VK} {accountId : AccountId}
    (h : a.identifier = accountId) : holding token a = if accountId.tokenId = token then a.balance.val else 0 := by
  rw [holding, ← h]
  rfl

/-- The worth after a write, of an account that was there or is new. -/
theorem worth_write (fee : Fee) (token : TokenId) (l : PlainLedger F VK) {a : Account F VK} {accountId : AccountId}
    (h : a.identifier = accountId) :
    (l.write a).worth fee token + (if accountId.tokenId = token then (l.account accountId).balance.val else 0) =
      l.worth fee token + (if accountId.tokenId = token then a.balance.val else 0) +
        if token = TokenId.default then creationFee fee l.toAccounts accountId else 0 := by
  have htotal := total_write token l a
  rw [h, holding_of_identifier h, holding_of_identifier (Accounts.identifier_account l.toAccounts accountId)] at htotal
  rw [worth, worth, numAccounts_write, creationFee, h]
  by_cases htoken : token = TokenId.default
  · simp only [if_pos htoken]
    split
    · rw [Nat.mul_add, Nat.mul_one]
      omega
    · rw [Nat.add_zero]
      omega
  · simp only [if_neg htoken]
    omega

end PlainLedger

/-! ## What transactions charge and issue -/

/-- What the transaction takes from the accounts, besides creation fees. -/
def feePaid (token : TokenId) : Varying F → Nat
  | .command u => if token = TokenId.default then u.common.userCommand.data.fee.val else 0
  | .feeTransfer _ => 0
  | .coinbase _ => 0

/-- The tokens minted by a command that has not failed. -/
def minted (token : TokenId) : AppliedBody → Body → Nat
  | .mintTokens, .mintTokens p => if p.tokenId = token then p.amount.val else 0
  | _, _ => 0

/-- What the transaction adds to the accounts. -/
def issued (token : TokenId) : Varying F → Nat
  | .command u => minted token u.body u.common.userCommand.data.payload.body
  | .feeTransfer u =>
    if token = TokenId.default then ((OneOrTwo.toList u.feeTransfer).map fun ft => ft.fee.val).sum else 0
  | .coinbase u => if token = TokenId.default then u.coinbase.amount.val else 0

namespace PlainLedger

variable [ChainHashes F] [LedgerHash F VK Hash]

omit [LedgerHash F VK Hash] in
theorem worth_rewarded {fee : Fee} {slot : GlobalSlot} {l : PlainLedger F VK} {accountId : AccountId} {reward : Nat}
    {a : Account F VK} (token : TokenId) (h : Rewarded fee slot l.toAccounts accountId reward a)
    (htoken : accountId.tokenId = TokenId.default) :
    (l.write a).worth fee token = l.worth fee token + if token = TokenId.default then reward else 0 := by
  have hworth := worth_write fee token l h.identifier
  have hbalance := h.balance
  rw [htoken] at hworth
  by_cases heq : token = TokenId.default
  · subst heq
    simp only [if_true] at hworth ⊢
    omega
  · rw [if_neg (Ne.symm heq), if_neg (Ne.symm heq), if_neg heq] at hworth
    rw [if_neg heq]
    omega

omit [LedgerHash F VK Hash] in
/-- The account that was there is written without a change of its balance. -/
theorem worth_write_same {fee : Fee} {l : PlainLedger F VK} {a : Account F VK} {accountId : AccountId} (token : TokenId)
    (h : a.identifier = accountId) (hfound : l.find accountId ≠ none)
    (hbalance : a.balance = (l.account accountId).balance) : (l.write a).worth fee token = l.worth fee token := by
  have hworth := worth_write fee token l h
  rw [hbalance, creationFee_of_found hfound, ite_self] at hworth
  omega

/-- A fee is taken from an account of the default token that is there. -/
theorem worth_write_less {fee : Fee} {l : PlainLedger F VK} {a : Account F VK} {accountId : AccountId} {m : Nat}
    (token : TokenId) (h : a.identifier = accountId) (hfound : l.find accountId ≠ none)
    (htoken : accountId.tokenId = TokenId.default) (hbalance : a.balance.val + m = (l.account accountId).balance.val) :
    (l.write a).worth fee token + (if token = TokenId.default then m else 0) = l.worth fee token := by
  have hworth := worth_write fee token l h
  rw [creationFee_of_found hfound, ite_self, htoken] at hworth
  by_cases heq : token = TokenId.default
  · subst heq
    simp only [if_true] at hworth ⊢
    omega
  · rw [if_neg (Ne.symm heq), if_neg (Ne.symm heq)] at hworth
    rw [if_neg heq]
    omega

/-- A new account without a balance is worth its creation fee. -/
theorem worth_write_new (fee : Fee) {l : PlainLedger F VK} {a : Account F VK} {accountId : AccountId}
    (token : TokenId) (h : a.identifier = accountId) (hnew : l.find accountId = none) (hbalance : a.balance = 0) :
    (l.write a).worth fee token = l.worth fee token + if token = TokenId.default then fee.val else 0 := by
  have hworth := worth_write fee token l h
  rw [creationFee, if_pos hnew, hbalance, Accounts.account, hnew] at hworth
  simp only [Option.getD_none, Account.create, Fin.val_zero, ite_self, Nat.add_zero] at hworth
  exact hworth

theorem worth_charged {fee : Fee} {slot : GlobalSlot} {c : SignedCommand} {l : PlainLedger F VK} {a a' : Account F VK}
    (token : TokenId) (ha : l.find c.feePayer = some a) (h : Charged slot c a a') :
    (l.write a').worth fee token + (if token = TokenId.default then c.fee.val else 0) = l.worth fee token := by
  refine worth_write_less token (h.identifier.trans (Accounts.identifier_of_find ha))
    (by rw [ha]; exact Option.some_ne_none a) h.token ?_
  rw [Accounts.account_of_find ha]
  exact h.balance

theorem worth_paid {fee : Fee} {slot : GlobalSlot} {l : PlainLedger F VK} {source receiver : AccountId} {amount : Amount}
    {r s : Account F VK} (token : TokenId) (h : Paid fee slot l.toAccounts source receiver amount r s)
    (htoken : source.tokenId = receiver.tokenId) : ((l.write r).write s).worth fee token = l.worth fee token := by
  have hr := h.identifier_receiver
  have hs := h.identifier_source
  have hworth := worth_write fee token l hr
  have hworth' := worth_write fee token (l.write r) hs
  have hfound : (l.write r).find source ≠ none := by
    rw [find_write]
    split
    · exact Option.some_ne_none r
    · exact h.found
  rw [creationFee_of_found hfound, ite_self, account_write, hr, htoken] at hworth'
  have hreceived := h.received
  by_cases heq : source = receiver
  · subst heq
    have hsource := h.sourceAfter
    rw [if_pos rfl] at hsource
    have hbalance : s.balance = (l.account source).balance := by rw [hsource]
    rw [creationFee_of_found h.found, ite_self] at hworth
    rw [if_pos rfl, hbalance] at hworth'
    omega
  · have hpaid := h.paid heq
    rw [if_neg heq] at hworth'
    by_cases htok : receiver.tokenId = token
    · -- A receiver that is created has the default token.
      have hcreation : (if token = TokenId.default then creationFee fee l.toAccounts receiver else 0) =
          creationFee fee l.toAccounts receiver := by
        split
        next => rfl
        next hne => exact (creationFee_of_found fun hnone => hne (htok ▸ h.token hnone)).symm
      rw [hcreation] at hworth
      simp only [if_pos htok] at hworth hworth'
      omega
    · have hcreation : (if token = TokenId.default then creationFee fee l.toAccounts receiver else 0) = 0 := by
        split
        next hdef => exact creationFee_of_found fun hnone => htok ((h.token hnone).trans hdef.symm)
        next => rfl
      rw [hcreation] at hworth
      simp only [if_neg htok] at hworth hworth'
      omega

theorem worth_minted {fee : Fee} {slot : GlobalSlot} {l : PlainLedger F VK} {source receiver : AccountId}
    {amount : Amount} {r s : Account F VK} (token : TokenId)
    (h : Minted slot l.toAccounts source receiver amount r s) :
    ((l.write r).write s).worth fee token =
      l.worth fee token + if receiver.tokenId = token then amount.val else 0 := by
  have hworth := worth_write fee token l h.identifier_receiver
  have hreceived := h.received
  rw [creationFee_of_found h.receiverFound, ite_self] at hworth
  have hsource : (l.write r).account source = if source = receiver then r else l.account source := by
    rw [account_write, h.identifier_receiver]
  have hfound : (l.write r).find source ≠ none := by
    rw [find_write]
    split
    · exact Option.some_ne_none r
    · exact h.sourceFound
  rw [worth_write_same token h.identifier_source hfound (by rw [hsource, h.sourceAfter])]
  split
  next htok =>
    simp only [if_pos htok] at hworth
    omega
  next htok =>
    simp only [if_neg htok] at hworth
    omega

theorem worth_accountCreated {fee : Fee} {slot : GlobalSlot} {l : PlainLedger F VK}
    {feePayer source receiver : AccountId} {a f r s : Account F VK} (token : TokenId)
    (ha : l.find feePayer = some a) (htoken : feePayer.tokenId = TokenId.default)
    (h : AccountCreated fee slot l.toAccounts feePayer source receiver a f r s) :
    (if source = receiver then (l.write f).write s else ((l.write r).write f).write s).worth fee token =
      l.worth fee token := by
  have hid := Accounts.identifier_of_find ha
  have hf : f.identifier = feePayer := h.identifier_feePayer.trans hid
  have hr := h.identifier_receiver
  have hs := h.identifier_source hid
  have hfound : l.find feePayer ≠ none := by rw [ha]; exact Option.some_ne_none a
  have hne : feePayer ≠ receiver := fun heq => hfound (heq ▸ h.new)
  have hrbalance : r.balance = 0 := by
    rw [h.receiverAfter, Accounts.account, h.new]
    rfl
  by_cases heq : source = receiver
  · -- The new account is written once, as the source.
    have hsbalance : s.balance = 0 := by rw [h.sourceAfter, if_pos heq, hrbalance]
    have hnew : (l.write f).find source = none := by
      rw [find_write, hf, if_neg (heq ▸ hne.symm), heq, h.new]
    rw [if_pos heq, worth_write_new fee token hs hnew hsbalance]
    refine worth_write_less token hf hfound htoken ?_
    rw [Accounts.account_of_find ha]
    exact h.charged
  · rw [if_neg heq]
    have hfound' : (l.write r).find feePayer ≠ none := by
      rw [find_write, hr, if_neg hne]
      exact hfound
    have haccount : ((l.write r).write f).account source = if source = feePayer then f else l.account source := by
      rw [account_write, hf, account_write, hr, if_neg heq]
    have hsource : ((l.write r).write f).find source ≠ none := by
      rw [find_write, hf]
      split
      next => exact Option.some_ne_none f
      next hsf =>
        rw [find_write, hr, if_neg heq]
        exact h.found heq hsf
    have hless : ((l.write r).write f).worth fee token + (if token = TokenId.default then fee.val else 0) =
        (l.write r).worth fee token := by
      refine worth_write_less token hf hfound' htoken ?_
      rw [account_write, hr, if_neg hne, Accounts.account_of_find ha]
      exact h.charged
    have hnew := worth_write_new fee token hr h.new hrbalance
    rw [worth_write_same token hs hsource (by rw [haccount, h.sourceAfter, if_neg heq])]
    omega

/-- What a command does after its fee has been charged. -/
theorem worth_command {fee : Fee} {slot : GlobalSlot} {c : SignedCommand} {l l' : PlainLedger F VK} {a : Account F VK}
    {body : AppliedBody} {timing : Option Timing} (token : TokenId) (ha : l.find c.feePayer = some a)
    (htoken : c.feePayer.tokenId = TokenId.default) (h : CommandEffect fee slot c l a body timing l') :
    l'.worth fee token = l.worth fee token + minted token body c.payload.body := by
  have hfound : l.find c.feePayer ≠ none := by rw [ha]; exact Option.some_ne_none a
  have hid := Accounts.identifier_of_find ha
  cases h with
  | failed => rfl
  | stakeDelegation hbody hsource hfound' hafter =>
    refine worth_write_same token ?_ hfound' (by rw [hafter])
    rw [hafter]
    exact Accounts.identifier_account l.toAccounts _
  | payment hbody hsource hreceiver hpaid => exact worth_paid token hpaid (by rw [hsource, hreceiver])
  | createNewToken hbody hreceiver hfeePayer hcharged hcovered hnew hafter =>
    rename_i p receiver f r
    have hf : f.identifier = c.feePayer := by
      rw [hfeePayer]
      exact hid
    have hr : r.identifier = receiver := by
      rw [hafter]
      exact Accounts.identifier_account l.toAccounts receiver
    have hnew' : (l.write f).find receiver = none := by
      rw [find_write, if_neg, hnew]
      rintro rfl
      exact hfound (hf ▸ hnew)
    have hbalance : r.balance = 0 := by
      rw [hafter, Accounts.account, hnew]
      rfl
    rw [worth_write_new fee token hr hnew' hbalance, hbody]
    refine worth_write_less token hf hfound htoken ?_
    rw [Accounts.account_of_find ha]
    exact hcharged
  | createTokenAccount hbody hsource hreceiver hcreated =>
    rename_i p source receiver f r s
    rw [hbody]
    exact worth_accountCreated token ha htoken hcreated
  | mintTokens hbody hsource hreceiver htok hminted =>
    rw [worth_minted token hminted, hbody, hreceiver]
    rfl

theorem worth_feeTransfer {fee : Fee} {slot : GlobalSlot} {l l' : PlainLedger F VK} {t : FeeTransfer}
    {emptys : List AccountId} {timing : Timing} (token : TokenId)
    (h : FeeTransferEffect fee slot l t emptys timing l') :
    l'.worth fee token = l.worth fee token +
      if token = TokenId.default then ((OneOrTwo.toList t).map fun ft => ft.fee.val).sum else 0 := by
  cases h with
  | one htoken hrewarded =>
    rw [worth_rewarded token hrewarded htoken]
    rfl
  | same htoken1 htoken2 heq hfees hrewarded =>
    rw [worth_rewarded token hrewarded htoken1]
    rfl
  | two htoken1 htoken2 hne hrewarded1 htiming hrewarded2 =>
    rename_i ft1 ft2 a b
    have hrewarded2' : Rewarded fee slot (l.write a).toAccounts (feeTransferReceiver ft2) ft2.fee.val b :=
      hrewarded2.write (by rw [hrewarded1.identifier]; exact hne)
    rw [worth_rewarded token hrewarded2' htoken2, worth_rewarded token hrewarded1 htoken1, Nat.add_assoc]
    split <;> rfl

theorem worth_coinbase {fee : Fee} {slot : GlobalSlot} {l l' : PlainLedger F VK} {cb : Coinbase}
    {emptys : List AccountId} {timing : Timing} (token : TokenId)
    (h : CoinbaseEffect fee slot l cb emptys timing l') :
    l'.worth fee token = l.worth fee token + if token = TokenId.default then cb.amount.val else 0 := by
  cases h with
  | alone hft hrewarded => exact worth_rewarded token hrewarded rfl
  | feeTransfer hft hne hle htransferee hreceiver htiming =>
    rename_i ft t r
    have hreceiver' : Rewarded fee slot (l.write t).toAccounts (coinbaseReceiver cb) (cb.amount.val - ft.fee.val) r :=
      hreceiver.write (by rw [htransferee.identifier]; exact hne)
    rw [worth_rewarded token hreceiver' rfl, worth_rewarded token htransferee rfl]
    split <;> omega

/-- **One transaction.** -/
theorem worth_transaction {fee : Fee} {slot : GlobalSlot} {l l' : PlainLedger F VK} {t : Txn} {v : Varying F}
    (token : TokenId) (h : TransactionEffect fee slot l t v l') :
    l'.worth fee token + feePaid token v = l.worth fee token + issued token v := by
  cases h with
  | command hfound hcharged heffect hdata hchain htiming =>
    rename_i c u a a'
    have hid := hcharged.identifier.trans (Accounts.identifier_of_find hfound)
    have hfound' : (l.write a').find c.feePayer = some a' := by rw [find_write, if_pos hid.symm]
    rw [worth_command token hfound' hcharged.token heffect, feePaid, issued, hdata,
      ← worth_charged token hfound hcharged]
    omega
  | feeTransfer hdata heffect =>
    rw [worth_feeTransfer token heffect, feePaid, issued, hdata, Nat.add_zero]
  | coinbase hdata heffect =>
    rw [worth_coinbase token heffect, feePaid, issued, hdata, Nat.add_zero]

/-! ## The number of accounts -/

omit [LedgerHash F VK Hash] in
theorem Writes.numAccounts_le {R : Account F VK → Account F VK → Prop} {l l' : PlainLedger F VK} (h : Writes R l l') :
    l.numAccounts ≤ l'.numAccounts := by
  induction h with
  | refl => exact Nat.le_refl _
  | write _ _ ih =>
    rw [numAccounts_write]
    exact Nat.le_add_right_of_le ih

theorem numAccounts_le {fee : Fee} {slot : GlobalSlot} {l l' : PlainLedger F VK} {t : Txn} {v : Varying F}
    (h : TransactionEffect fee slot l t v l') : l.numAccounts ≤ l'.numAccounts := by
  cases h with
  | command hfound hcharged heffect hdata hchain htiming =>
    rename_i c u a a'
    have hid := hcharged.identifier.trans (Accounts.identifier_of_find hfound)
    have hfound' : (l.write a').find c.feePayer = some a' := by rw [find_write, if_pos hid.symm]
    have hcharge : Writes (fun _ _ => True) l (l.write a') := .single trivial
    exact Nat.le_trans hcharge.numAccounts_le (heffect.writes hfound' hcharged.signer).numAccounts_le
  | feeTransfer hdata heffect =>
    have hwrites : l.WritesTo slot none _ l' := heffect.writes
    exact hwrites.numAccounts_le
  | coinbase hdata heffect =>
    have hwrites : l.WritesTo slot none _ l' := heffect.writes
    exact hwrites.numAccounts_le

end PlainLedger

/-! ## Runs -/

variable [ChainHashes F] [LedgerHash F VK Hash]

open PlainLedger in
/-- What a run does to the worth of the ledger. -/
theorem worth_run {fee : Fee} {ts : List (GlobalSlot × Txn)} {l l' : PlainLedger F VK}
    {us : List (TransactionApplied F Hash)} (h : (applyTransactions fee ts).run l = (.ok us, l')) (token : TokenId) :
    l.numAccounts ≤ l'.numAccounts ∧
      l'.worth fee token + (us.map fun u => feePaid token u.varying).sum =
        l.worth fee token + (us.map fun u => issued token u.varying).sum := by
  refine applyTransactions_induction (P := fun l _ us l' => l.numAccounts ≤ l'.numAccounts ∧
    l'.worth fee token + (us.map fun u => feePaid token u.varying).sum =
      l.worth fee token + (us.map fun u => issued token u.varying).sum) (fun l => ⟨Nat.le_refl _, rfl⟩) ?_ h
  intro l slot t applied l₁ ts us l' heffect ih
  have hstep := worth_transaction token heffect
  refine ⟨Nat.le_trans (numAccounts_le heffect) ih.1, ?_⟩
  simp only [List.map_cons, List.sum_cons]
  omega

/-- **Transactions neither create nor lose currency.** -/
theorem applyTransactions_conserve {fee : Fee} {ts : List (GlobalSlot × Txn)} {l l' : PlainLedger F VK}
    {us : List (TransactionApplied F Hash)} (h : (applyTransactions fee ts).run l = (.ok us, l')) (token : TokenId) :
    l.numAccounts ≤ l'.numAccounts ∧
      l'.total token + (us.map fun u => feePaid token u.varying).sum +
          (if token = TokenId.default then fee.val * (l'.numAccounts - l.numAccounts) else 0) =
        l.total token + (us.map fun u => issued token u.varying).sum := by
  obtain ⟨hle, hworth⟩ := worth_run h token
  refine ⟨hle, ?_⟩
  rw [PlainLedger.worth, PlainLedger.worth] at hworth
  split at hworth
  next htoken =>
    rw [if_pos htoken, Nat.mul_sub]
    have := Nat.mul_le_mul_left fee.val hle
    omega
  next htoken =>
    rw [if_neg htoken]
    omega

open SampleRun in
theorem applyTransactions_conserve_sample :
    run.2.numAccounts = 4 ∧ run.2.total TokenId.default = 188 ∧ ledger.total TokenId.default = 160 ∧
      run.2.total TokenId.default + (applied.map fun u => feePaid TokenId.default u.varying).sum +
          (if TokenId.default = TokenId.default then (1 : Fee).val * (run.2.numAccounts - ledger.numAccounts) else 0) =
        ledger.total TokenId.default + (applied.map fun u => issued TokenId.default u.varying).sum :=
  ⟨by decide +kernel, by decide +kernel, by decide +kernel, (applyTransactions_conserve run_eq TokenId.default).2⟩

/-! ## The fee excess of a run -/

section Excess

open FeeExcess

theorem signedTotal_of_rebalance {t t' : FeeExcess} (h : rebalance t = .ok t') (token : TokenId) :
    t'.signedTotal token = t.signedTotal token := by
  have := congrArg (FeeExcess.total token) (rebalance_run h)
  rwa [total_run, total_run, Multiplicative.ofAdd.injective.eq_iff] at this

theorem signedTotal_of_isZero {t : FeeExcess} (h : t.isZero = true) (token : TokenId) : t.signedTotal token = 0 := by
  simp only [isZero, SignedAmount.equal, Bool.and_eq_true, decide_eq_true_eq] at h
  have hzero {x : SignedAmount} (hx : x.magnitude = 0 ∧ SignedAmount.zero.magnitude = 0 ∨ x = SignedAmount.zero) :
      x.toInt = 0 := by
    rcases hx with hx | rfl
    · exact SignedAmount.magnitude_eq_zero.1 hx.1
    · rfl
  rw [signedTotal, hzero h.1.1.1, hzero h.1.1.2, ite_self, ite_self, add_zero]

theorem toInt_ofUnsigned (m : Amount) : (SignedAmount.ofUnsigned m).toInt = m.val := rfl

theorem toInt_negate (m : Amount) : (SignedAmount.ofUnsigned m).negate.toInt = -(m.val : ℤ) := by
  rw [SignedAmount.negate, SignedAmount.ofUnsigned]
  split
  next h =>
    dsimp only at h
    rw [h]
    rfl
  next => rfl

/-- The default token is not minted. -/
theorem minted_default {fee : Fee} {slot : GlobalSlot} {c : SignedCommand} {l l' : PlainLedger F VK} {a : Account F VK}
    {body : AppliedBody} {timing : Option Timing} (h : CommandEffect fee slot c l a body timing l') :
    minted TokenId.default body c.payload.body = 0 := by
  cases h with
  | mintTokens hbody hsource hreceiver htoken hminted hsigned => rw [hbody, minted, if_neg htoken]
  | failed => rfl
  | stakeDelegation => rfl
  | payment => rfl
  | createNewToken => rfl
  | createTokenAccount => rfl

theorem feeTransfer_tokens {fee : Fee} {slot : GlobalSlot} {l l' : PlainLedger F VK} {t : FeeTransfer}
    {emptys : List AccountId} {timing : Timing} (h : FeeTransferEffect fee slot l t emptys timing l') :
    ∀ ft ∈ OneOrTwo.toList t, ft.feeToken = TokenId.default := by
  cases h with
  | one htoken _ => simpa [OneOrTwo.toList] using htoken
  | same htoken1 htoken2 _ _ _ => simpa [OneOrTwo.toList] using ⟨htoken1, htoken2⟩
  | two htoken1 htoken2 _ _ _ _ => simpa [OneOrTwo.toList] using ⟨htoken1, htoken2⟩

/-- The excess of a transaction that has been applied: its fee, or the fees
that it transfers, which are issued. -/
theorem feeExcess_signedTotal {fee : Fee} {slot : GlobalSlot} {l l' : PlainLedger F VK} {t : Txn} {v : Varying F}
    {fe : FeeExcess} (h : TransactionEffect fee slot l t v l') (hfe : t.transaction.feeExcess = .ok fe) :
    ∃ increase : Amount, t.transaction.supplyIncrease = .ok increase ∧
      fe.signedTotal TokenId.default + issued TokenId.default v =
        feePaid TokenId.default v + increase.val := by
  cases h with
  | command hfound hcharged heffect hdata hchain htiming =>
    rename_i c u a a'
    refine ⟨0, rfl, ?_⟩
    have htotal := signedTotal_of_rebalance hfe TokenId.default
    rw [htotal, issued, feePaid, hdata, minted_default heffect, FeeExcess.signedTotal, if_pos hcharged.token, if_pos rfl, if_pos rfl,
      toInt_ofUnsigned]
    rfl
  | feeTransfer hdata heffect =>
    refine ⟨0, rfl, ?_⟩
    have htokens := feeTransfer_tokens heffect
    rw [issued, feePaid, hdata, if_pos rfl]
    rename_i t u
    cases t with
    | one ft =>
      have htoken : ft.feeToken = TokenId.default := htokens ft (by simp [OneOrTwo.toList])
      rw [signedTotal_of_rebalance hfe, FeeExcess.signedTotal]
      simp [OneOrTwo.toList, htoken, toInt_negate, SignedAmount.toInt_zero]
    | two ft1 ft2 =>
      have htoken1 : ft1.feeToken = TokenId.default := htokens ft1 (by simp [OneOrTwo.toList])
      have htoken2 : ft2.feeToken = TokenId.default := htokens ft2 (by simp [OneOrTwo.toList])
      rw [signedTotal_of_rebalance hfe, FeeExcess.signedTotal]
      simp [OneOrTwo.toList, htoken1, htoken2, toInt_negate]
      omega
  | coinbase hdata heffect =>
    rename_i cb u
    obtain ⟨increase, hincrease, hfe⟩ := Exn.andThen_eq_ok.1 hfe
    cases hfe
    refine ⟨increase, hincrease, ?_⟩
    have hamount : increase = cb.amount := by
      rw [Coinbase.supplyIncrease] at hincrease
      split at hincrease
      next => exact (Except.ok.inj hincrease).symm
      next =>
        split at hincrease
        next => exact (Except.ok.inj hincrease).symm
        next => cases hincrease
    rw [issued, feePaid, hdata, hamount, if_pos rfl]
    rfl

/-- The excesses of a run, added up from `acc`. -/
theorem totalFeeExcess_signedTotal {fee : Fee} {ts : List (GlobalSlot × Txn)} {l l' : PlainLedger F VK}
    {us : List (TransactionApplied F Hash)} (h : (applyTransactions fee ts).run l = (.ok us, l')) :
    ∀ {acc fe : FeeExcess},
      Exn.fold (fun acc txn => txn.feeExcess.andThen fun feeExcess => combine acc feeExcess) acc
        (ts.map fun t => t.2.transaction) = .ok fe →
      ∃ increases : List Amount, ts.map (fun t => t.2.transaction.supplyIncrease) = increases.map .ok ∧
        fe.signedTotal TokenId.default + (us.map fun u => issued TokenId.default u.varying).sum =
          acc.signedTotal TokenId.default + (us.map fun u => feePaid TokenId.default u.varying).sum +
            (increases.map Fin.val).sum := by
  refine applyTransactions_induction (P := fun _ ts us _ => ∀ {acc fe : FeeExcess},
    Exn.fold (fun acc txn => txn.feeExcess.andThen fun feeExcess => combine acc feeExcess) acc
      (ts.map fun t => t.2.transaction) = .ok fe →
    ∃ increases : List Amount, ts.map (fun t => t.2.transaction.supplyIncrease) = increases.map .ok ∧
      fe.signedTotal TokenId.default + (us.map fun u => issued TokenId.default u.varying).sum =
        acc.signedTotal TokenId.default + (us.map fun u => feePaid TokenId.default u.varying).sum +
          (increases.map Fin.val).sum) ?_ ?_ h
  · intro _ acc fe hfold
    cases hfold
    exact ⟨[], rfl, by simp⟩
  · intro l slot t applied l₁ ts us l' heffect ih acc fe hfold
    obtain ⟨acc', hacc, hfold⟩ := Exn.fold_cons_eq_ok.1 hfold
    obtain ⟨fe₁, hfe₁, hacc⟩ := Exn.andThen_eq_ok.1 hacc
    obtain ⟨increase, hincrease, hstep⟩ := feeExcess_signedTotal heffect hfe₁
    obtain ⟨increases, hincreases, hrest⟩ := ih hfold
    have hcombine := combine_signedTotal hacc TokenId.default
    refine ⟨increase :: increases, by rw [List.map_cons, List.map_cons, hincrease, hincreases], ?_⟩
    simp only [List.map_cons, List.sum_cons, Nat.cast_add]
    omega

/-- **The supply follows the fee excess and the supply increases.** A run of
no excess, such as a block may have on each partition of the scan state,
adds the coinbases to the default token, less the fees for new accounts. -/
theorem applyTransactions_supply {fee : Fee} {ts : List (GlobalSlot × Txn)} {l l' : PlainLedger F VK}
    {us : List (TransactionApplied F Hash)} {fe : FeeExcess} (h : (applyTransactions fee ts).run l = (.ok us, l'))
    (hfe : StagedLedger.totalFeeExcess (ts.map fun t => t.2.transaction) = .ok fe) :
    ∃ increases : List Amount, ts.map (fun t => t.2.transaction.supplyIncrease) = increases.map .ok ∧
      (l'.total TokenId.default : ℤ) + fe.signedTotal TokenId.default +
          fee.val * (l'.numAccounts - l.numAccounts : Nat) =
        l.total TokenId.default + (increases.map Fin.val).sum ∧
      (fe.isZero = true → l'.total TokenId.default + fee.val * (l'.numAccounts - l.numAccounts) =
        l.total TokenId.default + (increases.map Fin.val).sum) := by
  obtain ⟨increases, hincreases, hexcess⟩ := totalFeeExcess_signedTotal h hfe
  obtain ⟨hle, hworth⟩ := worth_run h TokenId.default
  rw [PlainLedger.worth, PlainLedger.worth, if_pos rfl, if_pos rfl] at hworth
  have hempty : FeeExcess.empty.signedTotal TokenId.default = 0 := rfl
  have htotal : (l'.total TokenId.default : ℤ) + fe.signedTotal TokenId.default +
      (fee.val * (l'.numAccounts - l.numAccounts) : Nat) =
        l.total TokenId.default + (increases.map Fin.val).sum := by
    have := Nat.mul_le_mul_left fee.val hle
    rw [Nat.mul_sub]
    omega
  refine ⟨increases, hincreases, by rw [← htotal, Nat.cast_mul], fun hzero => ?_⟩
  have hz : fe.signedTotal TokenId.default = 0 := signedTotal_of_isZero hzero TokenId.default
  omega

open SampleRun in
theorem applyTransactions_supply_sample :
    StagedLedger.totalFeeExcess (transactions.map fun t => t.2.transaction) = .ok .empty ∧
      ∃ increases : List Amount, transactions.map (fun t => t.2.transaction.supplyIncrease) = increases.map .ok ∧
        run.2.total TokenId.default + (1 : Fee).val * (run.2.numAccounts - ledger.numAccounts) =
          ledger.total TokenId.default + (increases.map Fin.val).sum := by
  have hfe : StagedLedger.totalFeeExcess (transactions.map fun t => t.2.transaction) = .ok .empty := by
    decide +kernel
  obtain ⟨increases, hincreases, -, hsupply⟩ := applyTransactions_supply run_eq hfe
  exact ⟨hfe, increases, hincreases, hsupply rfl⟩

end Excess

end Mina.TransactionLogic
