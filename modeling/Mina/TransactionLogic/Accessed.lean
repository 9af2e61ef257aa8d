/-
The accounts that a run may change: those that `accounts_accessed` names at
the ledger the transaction is applied to, so that a sparse ledger of them is
enough for it. A command that has failed changes its fee payer only.
-/
import Mina.TransactionLogic.StagedUndos

namespace Mina.TransactionLogic

open LedgerIntf LedgerM PlainLedger

variable {F VK Hash : Type} [ChainHashes F]

theorem PlainLedger.Writes.find_eq {slot : GlobalSlot} {signer : Option PublicKey} {ids : List AccountId}
    {l l' : PlainLedger F VK} {x : AccountId} (h : l.WritesTo slot signer ids l') (hx : x ∉ ids) :
    l'.find x = l.find x := by
  induction h with
  | refl => rfl
  | @write l₁ a _ ha ih =>
    have hne : x ≠ a.identifier := fun heq => hx (heq ▸ ha.2)
    rw [find_write, if_neg hne, ih]

variable [LedgerHash F VK Hash]

/-- The account is one of those that the transaction may change. -/
structure Accesses (l : PlainLedger F VK) (t : Txn) (varying : Varying F) (x : AccountId) : Prop where
  accessed : x ∈ t.accountsAccessed l.nextAvailableToken
  failed : ∀ u, varying = .command u → u.body = .failed → x = u.common.userCommand.data.feePayer

/-- **A transaction changes no other account.** -/
theorem TransactionEffect.accesses {fee : Fee} {slot : GlobalSlot} {l l' : PlainLedger F VK} {t : Txn}
    {varying : Varying F} {x : AccountId} (h : l.Available) (heffect : TransactionEffect fee slot l t varying l')
    (hne : l'.find x ≠ l.find x) : Accesses l t varying x := by
  cases heffect with
  | @command c u a a' _ hfound hcharged heffect hdata =>
    have hid : a'.identifier = c.feePayer := hcharged.identifier.trans (Accounts.identifier_of_find hfound)
    have hnext := Undoing.next_write (token_lt_of_default hid hcharged.token h.default)
    have hcharge (hx : x ≠ c.feePayer) : (l.write a').find x = l.find x := by rw [find_write, hid, if_neg hx]
    constructor
    · by_contra hmem
      have hwrites := heffect.writes (by rw [find_write, if_pos hid.symm]) hcharged.signer
      rw [hnext] at hwrites
      refine hne ((hwrites.find_eq hmem).trans (hcharge ?_))
      rintro rfl
      exact hmem List.mem_cons_self
    · intro u' hu hfailed
      cases hu
      rw [hdata]
      by_contra hx
      generalize u.common.sourceTiming = timing at heffect
      rw [hfailed] at heffect
      cases heffect
      exact hne (hcharge hx)
  | @feeTransfer t u _ hdata heffect =>
    refine ⟨?_, fun u' hu => by cases hu⟩
    by_contra hmem
    have hwrites : l.WritesTo slot none _ l' := heffect.writes
    exact hne (hwrites.find_eq hmem)
  | @coinbase cb u _ hdata heffect =>
    refine ⟨?_, fun u' hu => by cases hu⟩
    by_contra hmem
    have hwrites : l.WritesTo slot none _ l' := heffect.writes
    exact hne (hwrites.find_eq hmem)

/-- One of the transactions of a run may change the account, at the ledger that
those before it have left. -/
inductive RunAccesses (fee : Fee) (x : AccountId) :
    PlainLedger F VK → List (GlobalSlot × Txn) → List (TransactionApplied F Hash) → Prop
  | here {l : PlainLedger F VK} {slot : GlobalSlot} {t : Txn} {applied : TransactionApplied F Hash}
      {ts : List (GlobalSlot × Txn)} {us : List (TransactionApplied F Hash)} (h : Accesses l t applied.varying x) :
      RunAccesses fee x l ((slot, t) :: ts) (applied :: us)
  | later {l l₁ : PlainLedger F VK} {slot : GlobalSlot} {t : Txn} {applied : TransactionApplied F Hash}
      {ts : List (GlobalSlot × Txn)} {us : List (TransactionApplied F Hash)}
      (hrun : (applyTransaction fee slot t).run l = (.ok applied, l₁)) (h : RunAccesses fee x l₁ ts us) :
      RunAccesses fee x l ((slot, t) :: ts) (applied :: us)

/-- **A run changes no account that none of its transactions accesses**, and by
commands that fail no account but their fee payers. -/
theorem applyTransactions_accesses {fee : Fee} {ts : List (GlobalSlot × Txn)} {l l' : PlainLedger F VK}
    {us : List (TransactionApplied F Hash)} {x : AccountId} (h : l.Available)
    (hfits : l.nextAvailableToken.val + ts.length < 2 ^ 64) (hrun : (applyTransactions fee ts).run l = (.ok us, l'))
    (hne : l'.find x ≠ l.find x) : RunAccesses fee x l ts us := by
  induction ts generalizing l us with
  | nil =>
    obtain ⟨-, rfl⟩ := pure_eq_ok.1 hrun
    exact absurd rfl hne
  | cons st ts ih =>
    rw [List.length_cons] at hfits
    obtain ⟨u, us', l₁, rfl, hu, hus⟩ := applyTransactions_cons hrun
    have heffect := applyTransaction_effect hu
    by_cases hfirst : l₁.find x = l.find x
    · obtain ⟨havailable, hnext⟩ := heffect.available h (by omega)
      exact .later hu (ih havailable (by omega) hus (hfirst ▸ hne))
    · exact .here (heffect.accesses h hfirst)

open SampleRun in
theorem applyTransactions_accesses_sample :
    run.2.find ⟨bob, TokenId.default⟩ ≠ ledger.find ⟨bob, TokenId.default⟩ ∧
      RunAccesses 1 ⟨bob, TokenId.default⟩ ledger transactions applied := by
  have hne : run.2.find ⟨bob, TokenId.default⟩ ≠ ledger.find ⟨bob, TokenId.default⟩ := by decide +kernel
  exact ⟨hne, applyTransactions_accesses ledger_available (by decide) run_eq hne⟩

end Mina.TransactionLogic
