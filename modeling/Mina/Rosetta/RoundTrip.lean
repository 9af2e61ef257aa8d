/-
A payment or a delegation is read back from its operations
(`read_back`).

A fee of zero has no operation, and the parsers ask for one, so such a command
is not read back; amounts from 2^63 are not written (`Int64.of_string` of an
unsigned numeral raises). Whatever is written describes one command.
-/
import Mina.Rosetta.Parsers

namespace Mina.Rosetta

open Validation

/-! ## The operations of a command -/

/-- An operation without its place in the list. -/
def bare (k : OperationType) (account : Option AccountIdentifier) (amount : Option Amount) (metadata : Option Json) :
    Operation where
  operationIdentifier := operationIdentifier 0
  relatedOperations := none
  type := k.name
  status := none
  account := account
  amount := amount
  coinChange := none
  metadata := metadata

/-- It in its place. -/
def placed (op : Operation) (i : Nat) (related : Option Nat) : Operation :=
  { op with
    operationIdentifier := operationIdentifier i
    relatedOperations := related.map fun j => [operationIdentifier j] }

def feeOp (p : Partial) : Operation :=
  bare .feePayment (some (accountId p.feePayer p.feeToken)) (some (taken p.feeToken p.fee)) none

def sourceOp (p : Partial) (amount : Uint64) : Operation :=
  bare .paymentSourceDec (some (accountId p.source p.token)) (some (taken p.token amount)) none

def receiverOp (p : Partial) (amount : Uint64) : Operation :=
  bare .paymentReceiverInc (some (accountId p.receiver p.token)) (some (token p.token amount)) none

def delegateOp (p : Partial) : Operation :=
  bare .delegateChange (some (accountId p.source TokenId.default)) none
    (some (.assoc [("delegate_change_target", p.receiver)]))

section Lists

variable {p : Partial} {amount : Uint64}

theorem operation_fee (related : Option (List OperationIdentifier)) (i : OperationIdentifier) :
    operation none p related i .feePayment =
      if p.fee.val < 2 ^ 63 then
        .ok { feeOp p with operationIdentifier := i, relatedOperations := related } else .error "Int64.of_string" := by
  rw [operation, negated_token]
  split <;> rfl

theorem operation_source (related : Option (List OperationIdentifier)) (i : OperationIdentifier) :
    operation none p related i (.paymentSourceDec amount) =
      if amount.val < 2 ^ 63 then
        .ok { sourceOp p amount with operationIdentifier := i, relatedOperations := related }
      else .error "Int64.of_string" := by
  have hnot : ¬ (outcome none).didFail = true := Bool.false_ne_true
  rw [operation]
  dsimp only
  rw [if_neg hnot, negated_token]
  split <;> rfl

theorem operation_receiver (related : Option (List OperationIdentifier)) (i : OperationIdentifier) :
    operation none p related i (.paymentReceiverInc amount) =
      .ok { receiverOp p amount with operationIdentifier := i, relatedOperations := related } := rfl

theorem operation_delegate (related : Option (List OperationIdentifier)) (i : OperationIdentifier) :
    operation none p related i .delegateChange =
      .ok { delegateOp p with operationIdentifier := i, relatedOperations := related } := rfl

theorem toOperations_payment (hkind : p.kind = .payment) (hamount : p.amount = some amount) (hfee : p.fee ≠ 0) :
    toOperations none p =
      if p.fee.val < 2 ^ 63 ∧ amount.val < 2 ^ 63 then
        .ok [placed (feeOp p) 0 none, placed (sourceOp p amount) 1 none, placed (receiverOp p amount) 2 (some 1)]
      else .error "Int64.of_string" := by
  have hplan : plan none p = [⟨.feePayment, none⟩, ⟨.paymentSourceDec amount, none⟩,
      ⟨.paymentReceiverInc amount, some (.paymentSourceDec amount)⟩] := by
    simp [plan, hkind, hamount, hfee]
  have hrelated : related (plan none p) ⟨.paymentReceiverInc amount, some (.paymentSourceDec amount)⟩ =
      some [operationIdentifier 1] := by
    simp [related, hplan, List.findIdx?_cons, labelEq]
  rw [toOperations, build]
  simp only [hplan, List.zipIdx_cons, List.zipIdx_nil, Exn.mapList]
  rw [hplan] at hrelated
  rw [operation_fee, operation_source, operation_receiver, hrelated]
  by_cases hf : p.fee.val < 2 ^ 63
  · by_cases ha : amount.val < 2 ^ 63
    · rw [if_pos hf, if_pos ha, if_pos ⟨hf, ha⟩]
      rfl
    · rw [if_pos hf, if_neg ha, if_neg (not_and_of_not_right _ ha)]
      rfl
  · rw [if_neg hf, if_neg (not_and_of_not_left _ hf)]
    rfl

theorem toOperations_payment_free (hkind : p.kind = .payment) (hamount : p.amount = some amount) (hfee : p.fee = 0) :
    toOperations none p =
      if amount.val < 2 ^ 63 then .ok [placed (sourceOp p amount) 0 none, placed (receiverOp p amount) 1 (some 0)]
      else .error "Int64.of_string" := by
  have hplan : plan none p = [⟨.paymentSourceDec amount, none⟩,
      ⟨.paymentReceiverInc amount, some (.paymentSourceDec amount)⟩] := by
    simp [plan, hkind, hamount, hfee]
  have hrelated : related (plan none p) ⟨.paymentReceiverInc amount, some (.paymentSourceDec amount)⟩ =
      some [operationIdentifier 0] := by
    simp [related, hplan, List.findIdx?_cons, labelEq]
  rw [hplan] at hrelated
  rw [toOperations, build]
  simp only [hplan, List.zipIdx_cons, List.zipIdx_nil, Exn.mapList]
  rw [operation_source, operation_receiver, hrelated]
  split <;> rfl

theorem toOperations_delegation (hkind : p.kind = .delegation) (hfee : p.fee ≠ 0) :
    toOperations none p =
      if p.fee.val < 2 ^ 63 then .ok [placed (feeOp p) 0 none, placed (delegateOp p) 1 none]
      else .error "Int64.of_string" := by
  have hplan : plan none p = [⟨.feePayment, none⟩, ⟨.delegateChange, none⟩] := by
    simp [plan, hkind, hfee]
  rw [toOperations, build]
  simp only [hplan, List.zipIdx_cons, List.zipIdx_nil, Exn.mapList]
  rw [operation_fee, operation_delegate]
  split <;> rfl

theorem toOperations_delegation_free (hkind : p.kind = .delegation) (hfee : p.fee = 0) :
    toOperations none p = .ok [placed (delegateOp p) 0 none] := by
  have hplan : plan none p = [⟨.delegateChange, none⟩] := by
    simp [plan, hkind, hfee]
  rw [toOperations, build]
  simp only [hplan, List.zipIdx_cons, List.zipIdx_nil, Exn.mapList]
  rfl

end Lists

/-! ## Reading back -/

/-- A payment with an amount, or a delegation in the default token, whose fee
its source pays in the same token. -/
structure Simple (p : Partial) : Prop where
  feePayer : p.feePayer = p.source
  feeToken : p.feeToken = p.token
  kind : (p.kind = .payment ∧ ∃ amount, p.amount = some amount) ∨
    (p.kind = .delegation ∧ p.token = TokenId.default ∧ p.amount = none)

theorem tokenIdOfAccount_accountId (pk : String) (tok : Uint64) : tokenIdOfAccount (accountId pk tok) = some tok :=
  TokenId.decode_encode tok

theorem ofString_token (tok n : Uint64) : Uint64.ofString (token tok n).value = .ok n := by
  rw [token_eq]
  exact Uint64.ofString_toString n

section ReadBack

variable {p : Partial} {amount : Uint64} (hfee : p.fee.val < 2 ^ 63)
include hfee

theorem payment_converts (hsource : p.feePayer = p.source) (htoken : p.feeToken = p.token) (hkind : p.kind = .payment)
    (hp : p.amount = some amount) (hamount : amount.val < 2 ^ 63) :
    Converts [placed (feeOp p) 0 none, placed (sourceOp p amount) 1 none, placed (receiverOp p amount) 2 (some 1)]
      p.memo p.validUntil .payment (.ok p) := by
  have hcommand : paymentCommand p.memo p.validUntil () (accountId p.source p.token) p.token p.feeToken
      (accountId p.receiver p.token) () (token p.token amount) (token p.feeToken p.fee) = .ok p := by
    rw [paymentCommand, ofString_token, Exn.andThen_ok, ofString_token, Exn.andThen_ok, ← hp, ← hkind]
    congr 1
    rw [show (accountId p.source p.token).address = p.source from rfl]
    nth_rewrite 1 [← hsource]
    rfl
  rw [← hcommand]
  refine .payment rfl ?_ ?_ ?_ ?_ ⟨(), rfl⟩ ?_ ?_
  · refine paymentAccountA_eq_ok.2 ⟨_, rfl, _, rfl, rfl, _, rfl, ?_⟩
    rw [hsource, htoken]
    exact AccountIdentifier.equal_refl _
  · exact tokenOf_eq_ok.2 ⟨_, rfl, _, rfl, tokenIdOfAccount_accountId _ _⟩
  · exact tokenOf_eq_ok.2 ⟨_, rfl, _, rfl, tokenIdOfAccount_accountId _ _⟩
  · exact accountOf_eq_ok.2 ⟨_, rfl, rfl⟩
  · exact paymentAmountX_eq_ok.2 ⟨_, rfl, _, rfl, _, rfl, rfl, _, negated_taken hamount, Amount.equal_refl _⟩
  · exact paymentAmountY_eq_ok.2 ⟨_, rfl, _, rfl, negated_taken hfee⟩

theorem delegation_converts (hsource : p.feePayer = p.source) (hkind : p.kind = .delegation)
    (htoken : p.token = TokenId.default) (hp : p.amount = none) :
    Converts [placed (feeOp p) 0 none, placed (delegateOp p) 1 none] p.memo p.validUntil .delegation (.ok p) := by
  have hcommand : plainCommand p.memo p.validUntil .delegation (accountId p.feePayer p.feeToken).address p.receiver
      p.feeToken (token p.feeToken p.fee) = .ok p := by
    rw [plainCommand, ofString_token, Exn.andThen_ok, ← hp, ← hkind, ← htoken]
    congr 1
    rw [show (accountId p.feePayer p.feeToken).address = p.feePayer from rfl]
    nth_rewrite 2 [hsource]
    rfl
  rw [← hcommand]
  refine .delegation rfl ?_ ?_ ?_ ⟨(), rfl⟩ ?_
  · exact accountOf_eq_ok.2 ⟨_, rfl, rfl⟩
  · exact tokenOf_eq_ok.2 ⟨_, rfl, _, rfl, tokenIdOfAccount_accountId _ _⟩
  · exact fieldOf_eq_ok.2 ⟨_, rfl, rfl⟩
  · exact paymentAmountY_eq_ok.2 ⟨_, rfl, _, rfl, negated_taken hfee⟩

end ReadBack

theorem checksReturn_of {ops : List Operation} (hy : ∃ v, paymentAmountY ops = .ok v)
    (hx : ∃ v, paymentAmountX ops = .ok v) (hmint : ∃ v, mintToken ops = .ok v) (k : Kind) : ChecksReturn ops k := by
  cases k with
  | payment => exact ⟨hy, hx⟩
  | delegation => exact hy
  | createToken => exact hy
  | createTokenAccount => exact hy
  | mintTokens => exact ⟨hy, hmint⟩

theorem read_back {p : Partial} (hp : Simple p) (hpos : p.fee ≠ 0) (hfee : p.fee.val < 2 ^ 63)
    (hamount : ∀ amount, p.amount = some amount → amount.val < 2 ^ 63) :
    ∃ ops, toOperations none p = .ok ops ∧ ofOperations p.memo p.validUntil ops = .ok (.ok p) := by
  rcases hp.kind with ⟨hkind, amount, hsome⟩ | ⟨hkind, htoken, hnone⟩
  · have hconverts := payment_converts hfee hp.feePayer hp.feeToken hkind hsome (hamount amount hsome)
    refine ⟨_, by rw [toOperations_payment hkind hsome hpos, if_pos (And.intro hfee (hamount amount hsome))],
      ofOperations_of_converts hconverts ?_⟩
    obtain ⟨hy, hx⟩ := converts_checksReturn hconverts
    exact checksReturn_of hy hx ⟨_, rfl⟩
  · have hconverts := delegation_converts hfee hp.feePayer hkind htoken hnone
    refine ⟨_, by rw [toOperations_delegation hkind hpos, if_pos hfee], ofOperations_of_converts hconverts ?_⟩
    exact checksReturn_of (converts_checksReturn hconverts) ⟨_, rfl⟩ ⟨_, rfl⟩

/-! ## One command -/

theorem accountId_inj {pk pk' : String} {tok tok' : Uint64} (h : some (accountId pk tok) = some (accountId pk' tok')) :
    pk = pk' ∧ tok = tok' := by
  have haccount := Option.some.inj h
  exact ⟨congrArg AccountIdentifier.address haccount,
    TokenId.encode_inj (Option.some.inj (congrArg AccountIdentifier.metadata haccount))⟩

theorem taken_inj {tok tok' m n : Uint64} (hm : m.val < 2 ^ 63) (hn : n.val < 2 ^ 63)
    (h : some (taken tok m) = some (taken tok' n)) : m = n := by
  have hvalue : Int64.toString (-(m.val : Int)) = Int64.toString (-(n.val : Int)) :=
    congrArg Amount.value (Option.some.inj h)
  have hneg := Int64.toString_inj (by rw [Fits64]; omega) (by rw [Fits64]; omega) hvalue
  exact Fin.ext (by omega)

section Unique

variable {p q : Partial} {i j : Nat} {r s : Option Nat}

theorem feeOp_inj (hp : p.fee.val < 2 ^ 63) (hq : q.fee.val < 2 ^ 63)
    (h : placed (feeOp p) i r = placed (feeOp q) j s) :
    p.feePayer = q.feePayer ∧ p.feeToken = q.feeToken ∧ p.fee = q.fee := by
  obtain ⟨hpayer, htoken⟩ := accountId_inj (congrArg Operation.account h)
  exact ⟨hpayer, htoken, taken_inj hp hq (congrArg Operation.amount h)⟩

theorem sourceOp_inj {a b : Uint64} (ha : a.val < 2 ^ 63) (hb : b.val < 2 ^ 63)
    (h : placed (sourceOp p a) i r = placed (sourceOp q b) j s) : p.source = q.source ∧ p.token = q.token ∧ a = b := by
  obtain ⟨hsource, htoken⟩ := accountId_inj (congrArg Operation.account h)
  exact ⟨hsource, htoken, taken_inj ha hb (congrArg Operation.amount h)⟩

theorem receiverOp_inj {a b : Uint64} (h : placed (receiverOp p a) i r = placed (receiverOp q b) j s) :
    p.receiver = q.receiver := (accountId_inj (congrArg Operation.account h)).1

theorem delegateOp_inj (h : placed (delegateOp p) i r = placed (delegateOp q) j s) :
    p.source = q.source ∧ p.receiver = q.receiver := by
  refine ⟨(accountId_inj (congrArg Operation.account h)).1, ?_⟩
  have hmeta : some (Json.assoc [("delegate_change_target", p.receiver)]) =
      some (Json.assoc [("delegate_change_target", q.receiver)]) := congrArg Operation.metadata h
  injection hmeta with hjson
  injection hjson with hfields
  injection hfields with hfield
  exact congrArg Prod.snd hfield

/-- What a list of operations says: the fee, if it has an operation, and the
rest of the command. -/
theorem toOperations_cases (hp : Simple p) {ops : List Operation} (h : toOperations none p = .ok ops) :
    (∃ amount, p.kind = .payment ∧ p.amount = some amount ∧ p.fee ≠ 0 ∧ p.fee.val < 2 ^ 63 ∧ amount.val < 2 ^ 63 ∧
      ops = [placed (feeOp p) 0 none, placed (sourceOp p amount) 1 none, placed (receiverOp p amount) 2 (some 1)]) ∨
    (∃ amount, p.kind = .payment ∧ p.amount = some amount ∧ p.fee = 0 ∧ amount.val < 2 ^ 63 ∧
      ops = [placed (sourceOp p amount) 0 none, placed (receiverOp p amount) 1 (some 0)]) ∨
    (p.kind = .delegation ∧ p.fee ≠ 0 ∧ p.fee.val < 2 ^ 63 ∧
      ops = [placed (feeOp p) 0 none, placed (delegateOp p) 1 none]) ∨
    (p.kind = .delegation ∧ p.fee = 0 ∧ ops = [placed (delegateOp p) 0 none]) := by
  rcases hp.kind with ⟨hkind, amount, hsome⟩ | ⟨hkind, -, -⟩
  · by_cases hfee : p.fee = 0
    · rw [toOperations_payment_free hkind hsome hfee] at h
      split at h
      next hlt => exact .inr (.inl ⟨amount, hkind, hsome, hfee, hlt, (Except.ok.inj h).symm⟩)
      next => cases h
    · rw [toOperations_payment hkind hsome hfee] at h
      split at h
      next hlt => exact .inl ⟨amount, hkind, hsome, hfee, hlt.1, hlt.2, (Except.ok.inj h).symm⟩
      next => cases h
  · by_cases hfee : p.fee = 0
    · rw [toOperations_delegation_free hkind hfee] at h
      exact .inr (.inr (.inr ⟨hkind, hfee, (Except.ok.inj h).symm⟩))
    · rw [toOperations_delegation hkind hfee] at h
      split at h
      next hlt => exact .inr (.inr (.inl ⟨hkind, hfee, hlt, (Except.ok.inj h).symm⟩))
      next => cases h

/-- Operations of different types are different. -/
theorem placed_ne {k l : OperationType} (hne : k ≠ l) {x y : Operation} (hx : x.type = k.name) (hy : y.type = l.name) :
    placed x i r ≠ placed y j s := by
  intro h
  have htype : (placed x i r).type = (placed y j s).type := congrArg Operation.type h
  rw [show (placed x i r).type = x.type from rfl, show (placed y j s).type = y.type from rfl, hx, hy] at htype
  exact hne (OperationType.name_inj htype)

/-- Commands with the same fields that operations tell are the same. -/
theorem Simple.eq (hp : Simple p) (hq : Simple q) (hmemo : p.memo = q.memo) (hvalid : p.validUntil = q.validUntil)
    (hkind : p.kind = q.kind) (hsource : p.source = q.source) (hreceiver : p.receiver = q.receiver)
    (htoken : p.token = q.token) (hfee : p.fee = q.fee) (hamount : p.amount = q.amount) : p = q := by
  have hpayer : p.feePayer = q.feePayer := by rw [hp.feePayer, hq.feePayer, hsource]
  have hfeeToken : p.feeToken = q.feeToken := by rw [hp.feeToken, hq.feeToken, htoken]
  cases p
  cases q
  simp only [Partial.mk.injEq]
  exact ⟨hkind, hpayer, hsource, hreceiver, hfeeToken, htoken, hfee, hamount, hvalid, hmemo⟩

theorem Simple.delegation (hp : Simple p) (hkind : p.kind = .delegation) :
    p.token = TokenId.default ∧ p.amount = none := by
  rcases hp.kind with ⟨hpayment, -⟩ | ⟨-, htoken, hnone⟩
  · rw [hkind] at hpayment
    cases hpayment
  · exact ⟨htoken, hnone⟩

theorem same_operations (hp : Simple p) (hq : Simple q) (hmemo : p.memo = q.memo) (hvalid : p.validUntil = q.validUntil)
    {ops : List Operation} (hops : toOperations none p = .ok ops) (hops' : toOperations none q = .ok ops) : p = q := by
  rcases toOperations_cases hp hops with ⟨a, hk, ha, hf, hlt, halt, rfl⟩ | ⟨a, hk, ha, hf, halt, rfl⟩ |
      ⟨hk, hf, hlt, rfl⟩ | ⟨hk, hf, rfl⟩
  · rcases toOperations_cases hq hops' with ⟨b, hk', hb, hf', hlt', hblt, heq⟩ | ⟨b, hk', hb, hf', hblt, heq⟩ |
      ⟨hk', hf', hlt', heq⟩ | ⟨hk', hf', heq⟩
    · injection heq with hfirst htail
      injection htail with hsecond htail
      injection htail with hthird _
      obtain ⟨-, -, hfee⟩ := feeOp_inj hlt hlt' hfirst
      obtain ⟨hsource, htoken, rfl⟩ := sourceOp_inj halt hblt hsecond
      exact hp.eq hq hmemo hvalid (hk.trans hk'.symm) hsource (receiverOp_inj hthird) htoken hfee (ha.trans hb.symm)
    · exact absurd (congrArg List.length heq) (by simp)
    · exact absurd (congrArg List.length heq) (by simp)
    · exact absurd (congrArg List.length heq) (by simp)
  · rcases toOperations_cases hq hops' with ⟨b, hk', hb, hf', hlt', hblt, heq⟩ | ⟨b, hk', hb, hf', hblt, heq⟩ |
      ⟨hk', hf', hlt', heq⟩ | ⟨hk', hf', heq⟩
    · exact absurd (congrArg List.length heq) (by simp)
    · injection heq with hfirst htail
      injection htail with hsecond _
      obtain ⟨hsource, htoken, rfl⟩ := sourceOp_inj halt hblt hfirst
      exact hp.eq hq hmemo hvalid (hk.trans hk'.symm) hsource (receiverOp_inj hsecond) htoken (hf.trans hf'.symm)
        (ha.trans hb.symm)
    · injection heq with hfirst _
      exact absurd hfirst (placed_ne (k := .paymentSourceDec) (l := .feePayment) (by decide) rfl rfl)
    · exact absurd (congrArg List.length heq) (by simp)
  · rcases toOperations_cases hq hops' with ⟨b, hk', hb, hf', hlt', hblt, heq⟩ | ⟨b, hk', hb, hf', hblt, heq⟩ |
      ⟨hk', hf', hlt', heq⟩ | ⟨hk', hf', heq⟩
    · exact absurd (congrArg List.length heq) (by simp)
    · injection heq with hfirst _
      exact absurd hfirst (placed_ne (k := .feePayment) (l := .paymentSourceDec) (by decide) rfl rfl)
    · injection heq with hfirst htail
      injection htail with hsecond _
      obtain ⟨-, -, hfee⟩ := feeOp_inj hlt hlt' hfirst
      obtain ⟨hsource, hreceiver⟩ := delegateOp_inj hsecond
      obtain ⟨htoken, hnone⟩ := hp.delegation hk
      obtain ⟨htoken', hnone'⟩ := hq.delegation hk'
      exact hp.eq hq hmemo hvalid (hk.trans hk'.symm) hsource hreceiver (htoken.trans htoken'.symm) hfee
        (hnone.trans hnone'.symm)
    · exact absurd (congrArg List.length heq) (by simp)
  · rcases toOperations_cases hq hops' with ⟨b, hk', hb, hf', hlt', hblt, heq⟩ | ⟨b, hk', hb, hf', hblt, heq⟩ |
      ⟨hk', hf', hlt', heq⟩ | ⟨hk', hf', heq⟩
    · exact absurd (congrArg List.length heq) (by simp)
    · exact absurd (congrArg List.length heq) (by simp)
    · exact absurd (congrArg List.length heq) (by simp)
    · injection heq with hdelegate _
      obtain ⟨hsource, hreceiver⟩ := delegateOp_inj hdelegate
      obtain ⟨htoken, hnone⟩ := hp.delegation hk
      obtain ⟨htoken', hnone'⟩ := hq.delegation hk'
      exact hp.eq hq hmemo hvalid (hk.trans hk'.symm) hsource hreceiver (htoken.trans htoken'.symm) (hf.trans hf'.symm)
        (hnone.trans hnone'.symm)

end Unique

/-! ## Main result -/

/-- **Operations describe one command.** A payment or a delegation with a fee
is read back from its operations, and no two commands with the same memo and
expiry have the same. -/
theorem operations_describe :
    (∀ p, Simple p → p.fee ≠ 0 → p.fee.val < 2 ^ 63 → (∀ amount, p.amount = some amount → amount.val < 2 ^ 63) →
      ∃ ops, toOperations none p = .ok ops ∧ ofOperations p.memo p.validUntil ops = .ok (.ok p)) ∧
    ∀ p q ops, Simple p → Simple q → p.memo = q.memo → p.validUntil = q.validUntil →
      toOperations none p = .ok ops → toOperations none q = .ok ops → p = q :=
  ⟨fun _ hp hpos hfee hamount => read_back hp hpos hfee hamount,
    fun _ _ _ hp hq hmemo hvalid hops hops' => same_operations hp hq hmemo hvalid hops hops'⟩

/-- A payment of 5 to another key. -/
def smallPayment (fee : Uint64) : Partial where
  kind := .payment
  feePayer := "Alice"
  source := "Alice"
  receiver := "Bob"
  feeToken := 1
  token := 1
  fee
  amount := some 5
  validUntil := none
  memo := none

theorem smallPayment_simple (fee : Uint64) : Simple (smallPayment fee) := ⟨rfl, rfl, .inl ⟨rfl, 5, rfl⟩⟩

theorem operations_describe_small : ∃ ops, toOperations none (smallPayment 2) = .ok ops ∧
    ofOperations none none ops = .ok (.ok (smallPayment 2)) :=
  operations_describe.1 (smallPayment 2) (smallPayment_simple 2) (by decide) (by decide) fun amount h => by
    cases h
    decide

/-- Without a fee the length is not the one of a payment. -/
theorem free_payment_refused : ¬ ∀ p, Simple p →
    ∃ ops, toOperations none p = .ok ops ∧ ofOperations p.memo p.validUntil ops = .ok (.ok p) := by
  intro h
  obtain ⟨ops, hops, hread⟩ := h (smallPayment 0) (smallPayment_simple 0)
  rw [toOperations_payment_free rfl rfl rfl, if_pos (by decide)] at hops
  cases hops
  obtain ⟨-, k, hk⟩ := ofOperations_eq_ok.1 hread
  obtain ⟨op, hop⟩ := passes_fee (passes_of_converts (parser_eq_ok.1 hk))
  have hnone : (none : Option Operation) = some op := hop
  cases hnone

end Mina.Rosetta
