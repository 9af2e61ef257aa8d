/-
When `of_operations` is safe (`safe_iff`): it does not raise, and a payment or
a delegation that it returns is what the operations say.

The numerals of amounts are converted outside the validation, and the amount
of a minting is forced there, so operations can make it raise (`Readable`). And
a parser looks at some of the fields: subaccounts, the account of the receiver,
the currencies, coin changes, the metadata of operations, and numerals that are
written in another way go unread (`PlainPayment`, `PlainDelegation`).
-/
import Mina.Rosetta.RoundTrip

namespace Mina.Rosetta

open Validation

variable {ops : List Operation} {memo : Option String} {validUntil : Option Uint32}

/-! ## Safety -/

/-- Without its place, and without an empty status. -/
def stripped (op : Operation) : Operation :=
  { op with
    operationIdentifier := operationIdentifier 0
    relatedOperations := none
    status := if op.status = some "" then none else op.status }

/-- Up to order, places and empty statuses, the operations are those of the
command. -/
def Describes (ops : List Operation) (p : Partial) : Prop :=
  ∃ ops', toOperations none p = .ok ops' ∧ (ops.map stripped).Perm (ops'.map stripped)

structure Safe (memo : Option String) (validUntil : Option Uint32) (ops : List Operation) : Prop where
  returns : ∃ r, ofOperations memo validUntil ops = .ok r
  unique : ∀ k l p q, parser ops memo validUntil k = .ok (.ok p) → parser ops memo validUntil l = .ok (.ok q) →
    k = l
  describes : ∀ p, ofOperations memo validUntil ops = .ok (.ok p) → p.kind = .payment ∨ p.kind = .delegation →
    p.fee ≠ 0 → Describes ops p

/-! ## Its condition -/

/-- What the operation takes away, if it is a numeral, is not negative. -/
def Owes (ops : List Operation) (k : OperationType) : Prop :=
  ∀ op x i, Found ops k op → op.amount = some x → Int64.ofString x.value = .ok i → -2 ^ 63 < i ∧ i ≤ 0

def Minted (ops : List Operation) : Prop :=
  ∀ op x, Found ops .mintTokens op → op.amount = some x → ∃ n, Uint64.ofString x.value = .ok n

/-- Amounts are numerals where they are read. -/
structure Readable (ops : List Operation) : Prop where
  fee : ∀ op x, Found ops .feePayment op → op.amount = some x → ∃ i, Int64.ofString x.value = .ok i
  source : ∀ source receiver x y, Found ops .paymentSourceDec source → Found ops .paymentReceiverInc receiver →
    source.amount = some x → receiver.amount = some y → ∃ i, Int64.ofString x.value = .ok i
  mint : ∀ op, Found ops .mintTokens op → op.amount ≠ none
  owesFee : ∀ k, Passes ops k → Owes ops .feePayment
  owesAmount : Passes ops .payment → Owes ops .paymentSourceDec
  minted : Passes ops .mintTokens → Minted ops

/-- The fee is more than zero. -/
def Pays (ops : List Operation) : Prop :=
  ∃ op x i, Found ops .feePayment op ∧ op.amount = some x ∧ Int64.ofString x.value = .ok i ∧ i < 0

/-- An operation with an account of the token and the amount, and nothing
else. -/
structure Carries (op : Operation) (tok : Uint64) (x : Amount) : Prop where
  coinChange : op.coinChange = none
  metadata : op.metadata = none
  account : ∃ pk, op.account = some (accountId pk tok)
  amount : op.amount = some x

/-- The three operations are in one token. -/
def PlainPayment (ops : List Operation) : Prop :=
  ∀ fee source receiver, Found ops .feePayment fee → Found ops .paymentSourceDec source →
    Found ops .paymentReceiverInc receiver → ∃ tok feeAmount amount : Uint64, feeAmount.val < 2 ^ 63 ∧
      amount.val < 2 ^ 63 ∧ Carries fee tok (taken tok feeAmount) ∧ Carries source tok (taken tok amount) ∧
      Carries receiver tok (token tok amount)

/-- The delegation has an account in the default token, of the fee payer. -/
def PlainDelegation (ops : List Operation) : Prop :=
  ∀ fee delegate, Found ops .feePayment fee → Found ops .delegateChange delegate →
    (∃ tok feeAmount : Uint64, feeAmount.val < 2 ^ 63 ∧ Carries fee tok (taken tok feeAmount)) ∧
      delegate.coinChange = none ∧ delegate.amount = none ∧
      ∀ a, fee.account = some a → delegate.account = some (accountId a.address TokenId.default)

/-! ## Numerals -/

/-- What is taken away is converted if it is not negative. -/
theorem ofString_neg {i : Int} (hi : Fits64 i) {n : Uint64} :
    Uint64.ofString (Int64.toString (Int64.neg i)) = .ok n ↔ -2 ^ 63 < i ∧ (n.val : Int) = -i := by
  obtain ⟨hlo, hhi⟩ := hi
  rw [Uint64.ofString_int64 (show Fits64 (Int64.neg i) from int64_fits _)]
  by_cases hmin : i = -2 ^ 63
  · have hneg : Int64.neg i = -2 ^ 63 := by
      rw [hmin]
      rfl
    rw [hneg]
    omega
  · rw [Int64.neg_of_lt ⟨hlo, hhi⟩ hmin]
    omega

theorem exists_ofString_neg {i : Int} (hi : Fits64 i) :
    (∃ n, Uint64.ofString (Int64.toString (Int64.neg i)) = .ok n) ↔ -2 ^ 63 < i ∧ i ≤ 0 := by
  constructor
  · intro h
    obtain ⟨n, hn⟩ := h
    obtain ⟨hmin, hval⟩ := (ofString_neg hi).1 hn
    omega
  · intro h
    obtain ⟨hmin, hle⟩ := h
    refine ⟨⟨(-i).toNat, by omega⟩, (ofString_neg hi).2 ⟨hmin, ?_⟩⟩
    exact Int.toNat_of_nonneg (by omega)

theorem amountY_converts {y : Amount} (hy : paymentAmountY ops = .ok (.ok y)) :
    (∃ n, Uint64.ofString y.value = .ok n) ↔ Owes ops .feePayment := by
  obtain ⟨op, hop, x, hx, hneg⟩ := paymentAmountY_eq_ok.1 hy
  obtain ⟨i, hi, rfl⟩ := negated_ok.1 hneg
  rw [exists_ofString_neg (Int64.ofString_fits hi)]
  constructor
  · intro h op' x' i' hop' hx' hi'
    cases hop.unique hop'
    cases hx.symm.trans hx'
    cases hi.symm.trans hi'
    exact h
  · intro h
    exact h op x i hop hx hi

theorem amountX_converts {y : Amount} (hy : paymentAmountX ops = .ok (.ok y)) :
    (∃ n, Uint64.ofString y.value = .ok n) ↔ Owes ops .paymentSourceDec := by
  obtain ⟨source, hsource, receiver, hreceiver, x, hx, hy, x', hneg, hequal⟩ := paymentAmountX_eq_ok.1 hy
  obtain ⟨i, hi, rfl⟩ := negated_ok.1 hneg
  have hvalue : Int64.toString (Int64.neg i) = y.value := by
    rw [Amount.equal, Bool.and_eq_true, Bool.and_eq_true, decide_eq_true_eq] at hequal
    exact hequal.1.1
  rw [← hvalue, exists_ofString_neg (Int64.ofString_fits hi)]
  constructor
  · intro h op' x' i' hop' hx' hi'
    cases hsource.unique hop'
    cases hx.symm.trans hx'
    cases hi.symm.trans hi'
    exact h
  · intro h
    exact h source x i hsource hx hi

theorem mintAmount_converts {x : Amount} (hx : mintAmount ops = .ok x) :
    (∃ n, Uint64.ofString x.value = .ok n) ↔ Minted ops := by
  obtain ⟨op, hop, hamount⟩ := mintAmount_eq_ok.1 hx
  constructor
  · intro h op' x' hop' hx'
    cases hop.unique hop'
    cases hamount.symm.trans hx'
    exact h
  · intro h
    exact h op x hop hamount

theorem paymentCommand_returns {u v : Unit} {a b : AccountIdentifier} {tok feeTok : Uint64} {x y : Amount} :
    (∃ p, paymentCommand memo validUntil u a tok feeTok b v x y = .ok p) ↔
      (∃ n, Uint64.ofString y.value = .ok n) ∧ ∃ n, Uint64.ofString x.value = .ok n := by
  unfold paymentCommand
  simp only [Exn.andThen_eq_ok]
  constructor
  · intro h
    obtain ⟨p, amount, hamount, fee, hfee, -⟩ := h
    exact ⟨⟨fee, hfee⟩, amount, hamount⟩
  · intro h
    obtain ⟨⟨fee, hfee⟩, amount, hamount⟩ := h
    exact ⟨_, amount, hamount, fee, hfee, rfl⟩

theorem mintCommand_returns {u v : Unit} {a b : AccountIdentifier} {tok feeTok : Uint64} {x y : Amount}
    {c : String} :
    (∃ p, mintCommand memo validUntil u a feeTok v y b x c tok = .ok p) ↔
      (∃ n, Uint64.ofString y.value = .ok n) ∧ ∃ n, Uint64.ofString x.value = .ok n := by
  unfold mintCommand
  simp only [Exn.andThen_eq_ok]
  constructor
  · intro h
    obtain ⟨p, amount, hamount, fee, hfee, -⟩ := h
    exact ⟨⟨fee, hfee⟩, amount, hamount⟩
  · intro h
    obtain ⟨⟨fee, hfee⟩, amount, hamount⟩ := h
    exact ⟨_, amount, hamount, fee, hfee, rfl⟩

theorem plainCommand_returns {k : Kind} {a b : String} {feeTok : Uint64} {y : Amount} :
    (∃ p, plainCommand memo validUntil k a b feeTok y = .ok p) ↔ ∃ n, Uint64.ofString y.value = .ok n := by
  unfold plainCommand
  simp only [Exn.andThen_eq_ok]
  constructor
  · intro h
    obtain ⟨p, fee, hfee, -⟩ := h
    exact ⟨fee, hfee⟩
  · intro h
    obtain ⟨fee, hfee⟩ := h
    exact ⟨_, fee, hfee, rfl⟩

/-! ## When it returns -/

theorem converts_of_passes {k : Kind} (h : Passes ops k) : ∃ e, Converts ops memo validUntil k e := by
  cases k with
  | payment =>
    obtain ⟨hlen, ⟨a, ha⟩, ⟨tok, htok⟩, ⟨feeTok, hfeeTok⟩, ⟨b, hb⟩, hstatus, ⟨x, hx⟩, y, hy⟩ := h
    exact ⟨_, .payment hlen ha htok hfeeTok hb hstatus hx hy⟩
  | delegation =>
    obtain ⟨hlen, ⟨a, ha⟩, ⟨feeTok, hfeeTok⟩, ⟨b, hb⟩, hstatus, y, hy⟩ := h
    exact ⟨_, .delegation hlen ha hfeeTok hb hstatus hy⟩
  | createToken =>
    obtain ⟨hlen, ⟨a, ha⟩, ⟨feeTok, hfeeTok⟩, hstatus, ⟨y, hy⟩, hdelegate, hmint⟩ := h
    exact ⟨_, .createToken hlen ha hfeeTok hstatus hy hdelegate hmint⟩
  | createTokenAccount =>
    obtain ⟨hlen, ⟨a, ha⟩, ⟨feeTok, hfeeTok⟩, hstatus, y, hy⟩ := h
    exact ⟨_, .createTokenAccount hlen ha hfeeTok hstatus hy⟩
  | mintTokens =>
    obtain ⟨hlen, ⟨a, ha⟩, ⟨feeTok, hfeeTok⟩, hstatus, ⟨y, hy⟩, ⟨b, hb⟩, ⟨x, hx⟩, ⟨c, hc⟩, tok, htok⟩ := h
    exact ⟨_, .mintTokens hlen ha hfeeTok hstatus hy hb hx hc htok⟩

/-- When the checks pass, the numerals are what is left to go wrong. -/
theorem converts_returns {k : Kind} {e : Exn Partial} (h : Converts ops memo validUntil k e) : (∃ p, e = .ok p) ↔
    Owes ops .feePayment ∧ (k = .payment → Owes ops .paymentSourceDec) ∧ (k = .mintTokens → Minted ops) := by
  cases h with
  | payment _ _ _ _ _ _ hx hy =>
    rw [paymentCommand_returns, amountY_converts hy, amountX_converts hx]
    exact and_congr_right fun _ => ⟨fun h => ⟨fun _ => h, fun hk => (by cases hk)⟩, fun h => h.1 rfl⟩
  | delegation _ _ _ _ _ hy =>
    rw [plainCommand_returns, amountY_converts hy]
    exact ⟨fun h => ⟨h, fun hk => (by cases hk), fun hk => (by cases hk)⟩, fun h => h.1⟩
  | createToken _ _ _ _ hy =>
    rw [plainCommand_returns, amountY_converts hy]
    exact ⟨fun h => ⟨h, fun hk => (by cases hk), fun hk => (by cases hk)⟩, fun h => h.1⟩
  | createTokenAccount _ _ _ _ hy =>
    rw [plainCommand_returns, amountY_converts hy]
    exact ⟨fun h => ⟨h, fun hk => (by cases hk), fun hk => (by cases hk)⟩, fun h => h.1⟩
  | mintTokens _ _ _ _ hy _ hx =>
    rw [mintCommand_returns, amountY_converts hy, mintAmount_converts hx]
    exact and_congr_right fun _ => ⟨fun h => ⟨fun hk => (by cases hk), fun _ => h⟩, fun h => h.2 rfl⟩

theorem returns_iff : (∃ r, ofOperations memo validUntil ops = .ok r) ↔ Readable ops := by
  rw [ofOperations_returns]
  constructor
  · intro h
    have hpasses : ∀ {k}, Passes ops k → Owes ops .feePayment ∧ (k = .payment → Owes ops .paymentSourceDec) ∧
        (k = .mintTokens → Minted ops) := by
      intro k hk
      have hconverts : ∃ e, Converts ops memo validUntil k e := converts_of_passes hk
      obtain ⟨e, he⟩ := hconverts
      exact (converts_returns he).1 (((parser_returns memo validUntil).1 (h k)).2 e he)
    obtain ⟨⟨hy, hx⟩, -⟩ := (parser_returns memo validUntil).1 (h .payment)
    obtain ⟨⟨-, hmint⟩, -⟩ := (parser_returns memo validUntil).1 (h .mintTokens)
    exact ⟨paymentAmountY_returns.1 hy, paymentAmountX_returns.1 hx, mintToken_returns.1 hmint,
      fun k hk => (hpasses hk).1, fun hk => (hpasses hk).2.1 rfl, fun hk => (hpasses hk).2.2 rfl⟩
  · intro h k
    refine (parser_returns memo validUntil).2 ⟨?_, fun e he => ?_⟩
    · exact checksReturn_of (paymentAmountY_returns.2 h.fee) (paymentAmountX_returns.2 h.source)
        (mintToken_returns.2 h.mint) k
    · have hk := passes_of_converts he
      refine (converts_returns he).2 ⟨h.owesFee k hk, fun heq => ?_, fun heq => ?_⟩
      · exact h.owesAmount (heq ▸ hk)
      · exact h.minted (heq ▸ hk)

/-! ## What the operations say -/

/-- An operation with an empty status and the fields of `bare` is it. -/
theorem stripped_eq {k : OperationType} {op : Operation} (htype : op.type = k.name)
    (hstatus : op.status = none ∨ op.status = some "") (hcoin : op.coinChange = none)
    {a : Option AccountIdentifier} {x : Option Amount} {m : Option Json} (ha : op.account = a) (hx : op.amount = x) (hm : op.metadata = m) :
    stripped op = bare k a x m := by
  have hnone : (if op.status = some "" then none else op.status) = none := by
    rcases hstatus with h | h
    · rw [h]
      rfl
    · exact if_pos h
  unfold stripped bare
  rw [hnone, htype, hcoin, ha, hx, hm]

theorem carries_of_stripped {k : OperationType} {op : Operation} {pk : String} {tok : Uint64} {x : Amount}
    (h : stripped op = bare k (some (accountId pk tok)) (some x) none) : Carries op tok x where
  coinChange := congrArg Operation.coinChange h
  metadata := congrArg Operation.metadata h
  account := ⟨pk, congrArg Operation.account h⟩
  amount := congrArg Operation.amount h

/-- Operations of different kinds are all there are, if their number is. -/
theorem perm_of_found {l : List Operation} (hlen : ops.length = l.length) (hmem : ∀ op ∈ l, op ∈ ops)
    (htypes : (l.map Operation.type).Nodup) : ops.Perm l :=
  ((List.subperm_of_subset htypes.of_map hmem).perm_of_length_le (by rw [hlen])).symm

/-- What a member is, among operations of other types. -/
theorem stripped_of_perm {l : List Operation} (hperm : (ops.map stripped).Perm l) {op : Operation}
    (hop : op ∈ ops) : ∃ op' ∈ l, stripped op = op' ∧ op'.type = op.type :=
  ⟨stripped op, hperm.mem_iff.1 (List.mem_map_of_mem hop), rfl, rfl⟩

theorem accounts_equal {pk pk' : String} {tok tok' : Uint64} {a b : AccountIdentifier} (h : a.equal b = true)
    (ha : a = accountId pk tok) (hb : b = accountId pk' tok') : pk = pk' ∧ tok = tok' := by
  rw [AccountIdentifier.equal, Bool.and_eq_true, Bool.and_eq_true, decide_eq_true_eq] at h
  obtain ⟨⟨haddress, -⟩, hmeta⟩ := h
  rw [ha, hb] at haddress hmeta
  exact ⟨haddress, TokenId.encode_inj (Json.equal_field hmeta)⟩

/-- What is known of the operations of a payment that is accepted. -/
structure PaymentParts (ops : List Operation) (p : Partial) (fee source receiver : Operation) (n : Uint64) :
    Prop where
  length : ops.length = 3
  foundFee : Found ops .feePayment fee
  foundSource : Found ops .paymentSourceDec source
  foundReceiver : Found ops .paymentReceiverInc receiver
  status : ∀ op ∈ ops, op.status = none ∨ op.status = some ""
  kind : p.kind = .payment
  amount : p.amount = some n
  accounts : ∃ a b, source.account = some a ∧ fee.account = some b ∧ a.equal b = true ∧ a.address = p.source ∧
    tokenIdOfAccount a = some p.token ∧ tokenIdOfAccount b = some p.feeToken
  payer : p.feePayer = p.source
  account : ∃ b, receiver.account = some b ∧ b.address = p.receiver
  feeAmount : ∃ x y, fee.amount = some x ∧ negated x = .ok y ∧ Uint64.ofString y.value = .ok p.fee
  sourceAmount : ∃ x y z, source.amount = some x ∧ negated x = .ok y ∧ receiver.amount = some z ∧
    y.value = z.value ∧ Uint64.ofString z.value = .ok n

theorem payment_parts {p : Partial} (h : Converts ops memo validUntil .payment (.ok p)) :
    ∃ fee source receiver n, PaymentParts ops p fee source receiver n := by
  generalize he : (Except.ok p : Exn Partial) = e at h
  cases h with
  | payment hlen ha htok hfeeTok hb hstatus hx hy =>
    obtain ⟨amount, hamount, he⟩ := Exn.andThen_eq_ok.1 he.symm
    obtain ⟨fee, hfee, he⟩ := Exn.andThen_eq_ok.1 he
    cases he
    obtain ⟨source, hsource, feeOp, hfeeOp, hsa, b, hfb, hequal⟩ := paymentAccountA_eq_ok.1 ha
    obtain ⟨source', hsource', a', hsa', htok⟩ := tokenOf_eq_ok.1 htok
    cases hsource.unique hsource'
    cases hsa.symm.trans hsa'
    obtain ⟨feeOp', hfeeOp', b', hfb', hfeeTok⟩ := tokenOf_eq_ok.1 hfeeTok
    cases hfeeOp.unique hfeeOp'
    cases hfb.symm.trans hfb'
    obtain ⟨receiver, hreceiver, hrb⟩ := accountOf_eq_ok.1 hb
    obtain ⟨source', hsource', receiver', hreceiver', x, hxamount, hzamount, x', hx', hxequal⟩ :=
      paymentAmountX_eq_ok.1 hx
    cases hsource.unique hsource'
    cases hreceiver.unique hreceiver'
    obtain ⟨feeOp', hfeeOp', y, hyamount, hy'⟩ := paymentAmountY_eq_ok.1 hy
    cases hfeeOp.unique hfeeOp'
    obtain ⟨u, hu⟩ := hstatus
    rw [Amount.equal, Bool.and_eq_true, Bool.and_eq_true, decide_eq_true_eq] at hxequal
    exact ⟨feeOp, source, receiver, amount, hlen, hfeeOp, hsource, hreceiver, statusEmpty_eq_ok.1 hu, rfl, rfl,
      ⟨_, b, hsa, hfb, hequal, rfl, htok, hfeeTok⟩, rfl, ⟨_, hrb, rfl⟩, ⟨y, _, hyamount, hy', hfee⟩,
      x, x', _, hxamount, hx', hzamount, hxequal.1.1, hamount⟩

theorem PaymentParts.perm {p : Partial} {fee source receiver : Operation} {n : Uint64}
    (h : PaymentParts ops p fee source receiver n) : ops.Perm [fee, source, receiver] := by
  refine perm_of_found h.length (fun op hop => ?_) ?_
  · rcases List.mem_cons.1 hop with rfl | hop
    · exact h.foundFee.mem
    · rcases List.mem_cons.1 hop with rfl | hop
      · exact h.foundSource.mem
      · rw [List.mem_singleton.1 hop]
        exact h.foundReceiver.mem
  · rw [List.map_cons, List.map_cons, List.map_singleton, h.foundFee.type, h.foundSource.type,
      h.foundReceiver.type]
    decide

/-- What is converted is less than 2^63. -/
theorem converted_lt {x y : Amount} (hy : negated x = .ok y) {n : Uint64} (hn : Uint64.ofString y.value = .ok n) :
    n.val < 2 ^ 63 := by
  obtain ⟨i, hi, rfl⟩ := negated_ok.1 hy
  obtain ⟨hmin, hval⟩ := (ofString_neg (Int64.ofString_fits hi)).1 hn
  omega

/-- Of what is taken away, the amount is converted. -/
theorem converted_taken {tok m n : Uint64} {y : Amount} (hm : m.val < 2 ^ 63) (hy : negated (taken tok m) = .ok y)
    (hn : Uint64.ofString y.value = .ok n) : n = m := by
  rw [negated_taken hm] at hy
  cases hy
  rw [ofString_token] at hn
  exact (Except.ok.inj hn).symm

theorem payment_describes {p : Partial} (h : Converts ops memo validUntil .payment (.ok p)) (hfee : p.fee ≠ 0) :
    Describes ops p ↔ PlainPayment ops := by
  obtain ⟨fee, source, receiver, n, hparts⟩ := payment_parts h
  obtain ⟨a, b, hsa, hfb, hequal, haddress, htok, hfeeTok⟩ := hparts.accounts
  obtain ⟨c, hrc, hcaddress⟩ := hparts.account
  obtain ⟨x, y, hxamount, hy, hfeeValue⟩ := hparts.feeAmount
  obtain ⟨s, s', z, hsamount, hs', hzamount, hvalue, hnValue⟩ := hparts.sourceAmount
  have hfeeLt : p.fee.val < 2 ^ 63 := converted_lt hy hfeeValue
  have hnLt : n.val < 2 ^ 63 := converted_lt hs' (by rw [hvalue]; exact hnValue)
  have hops : toOperations none p = .ok [placed (feeOp p) 0 none, placed (sourceOp p n) 1 none,
      placed (receiverOp p n) 2 (some 1)] := by
    rw [toOperations_payment hparts.kind hparts.amount hfee, if_pos (And.intro hfeeLt hnLt)]
  have hdescribes : Describes ops p ↔ (ops.map stripped).Perm [feeOp p, sourceOp p n, receiverOp p n] := by
    constructor
    · intro h
      obtain ⟨ops', hops', hperm⟩ := h
      rw [hops] at hops'
      cases hops'
      exact hperm
    · intro h
      exact ⟨_, hops, h⟩
  rw [hdescribes]
  constructor
  · intro hperm fee' source' receiver' hfee' hsource' hreceiver'
    cases hparts.foundFee.unique hfee'
    cases hparts.foundSource.unique hsource'
    cases hparts.foundReceiver.unique hreceiver'
    have hmember : ∀ {k : OperationType} {op : Operation}, Found ops k op →
        (stripped op = feeOp p ∧ k = .feePayment) ∨ (stripped op = sourceOp p n ∧ k = .paymentSourceDec) ∨
          (stripped op = receiverOp p n ∧ k = .paymentReceiverInc) := by
      intro k op hop
      obtain ⟨op', hmem, heq, htype⟩ := stripped_of_perm hperm hop.mem
      rw [hop.type] at htype
      rcases List.mem_cons.1 hmem with rfl | hmem
      · exact .inl ⟨heq, (OperationType.name_inj (k := .feePayment) htype).symm⟩
      · rcases List.mem_cons.1 hmem with rfl | hmem
        · exact .inr (.inl ⟨heq, (OperationType.name_inj (k := .paymentSourceDec) htype).symm⟩)
        · obtain rfl := List.mem_singleton.1 hmem
          exact .inr (.inr ⟨heq, (OperationType.name_inj (k := .paymentReceiverInc) htype).symm⟩)
    have hf : stripped fee = feeOp p := by
      rcases hmember hparts.foundFee with h | h | h
      · exact h.1
      · cases h.2
      · cases h.2
    have hs : stripped source = sourceOp p n := by
      rcases hmember hparts.foundSource with h | h | h
      · cases h.2
      · exact h.1
      · cases h.2
    have hr : stripped receiver = receiverOp p n := by
      rcases hmember hparts.foundReceiver with h | h | h
      · cases h.2
      · cases h.2
      · exact h.1
    have hfeeAccount : fee.account = some (accountId p.feePayer p.feeToken) := congrArg Operation.account hf
    have hsourceAccount : source.account = some (accountId p.source p.token) := congrArg Operation.account hs
    have htoken : p.token = p.feeToken :=
      (accounts_equal hequal (Option.some.inj (hsa.symm.trans hsourceAccount))
        (Option.some.inj (hfb.symm.trans hfeeAccount))).2
    refine ⟨p.token, p.fee, n, hfeeLt, hnLt, ?_, carries_of_stripped hs, carries_of_stripped hr⟩
    rw [htoken]
    exact carries_of_stripped hf
  · intro hplain
    obtain ⟨tok, m, n', hm, hn', hcf, hcs, hcr⟩ :=
      hplain fee source receiver hparts.foundFee hparts.foundSource hparts.foundReceiver
    obtain ⟨pk, hpk⟩ := hcf.account
    obtain ⟨pk', hpk'⟩ := hcs.account
    obtain ⟨pk'', hpk''⟩ := hcr.account
    obtain rfl := Option.some.inj (hfb.symm.trans hpk)
    obtain rfl := Option.some.inj (hsa.symm.trans hpk')
    obtain rfl := Option.some.inj (hrc.symm.trans hpk'')
    obtain ⟨hkeys, -⟩ := accounts_equal hequal rfl rfl
    rw [tokenIdOfAccount_accountId] at htok hfeeTok
    have htok := Option.some.inj htok
    have hfeeTok := Option.some.inj hfeeTok
    obtain rfl := Option.some.inj (hxamount.symm.trans hcf.amount)
    obtain rfl := Option.some.inj (hsamount.symm.trans hcs.amount)
    have hfeeValue := converted_taken hm hy hfeeValue
    have hnValue := converted_taken hn' hs' (by rw [hvalue]; exact hnValue)
    have hempty := hparts.status
    have hf : stripped fee = feeOp p := by
      refine stripped_eq hparts.foundFee.type (hempty _ hparts.foundFee.mem) hcf.coinChange ?_ ?_ hcf.metadata
      · rw [hfb, hparts.payer, ← haddress, ← hfeeTok]
        exact congrArg (fun pk => some (accountId pk tok)) hkeys.symm
      · rw [hcf.amount, ← hfeeTok, hfeeValue]
    have hs : stripped source = sourceOp p n := by
      refine stripped_eq hparts.foundSource.type (hempty _ hparts.foundSource.mem) hcs.coinChange ?_ ?_
        hcs.metadata
      · rw [hsa, ← haddress, ← htok]
        rfl
      · rw [hcs.amount, ← htok, hnValue]
    have hr : stripped receiver = receiverOp p n := by
      refine stripped_eq hparts.foundReceiver.type (hempty _ hparts.foundReceiver.mem) hcr.coinChange ?_ ?_
        hcr.metadata
      · rw [hrc, ← hcaddress, ← htok]
        rfl
      · rw [hcr.amount, ← htok, hnValue]
    rw [← hf, ← hs, ← hr]
    exact hparts.perm.map stripped

/-- What is known of the operations of a delegation that is accepted. -/
structure DelegationParts (ops : List Operation) (p : Partial) (fee delegate : Operation) : Prop where
  length : ops.length = 2
  foundFee : Found ops .feePayment fee
  foundDelegate : Found ops .delegateChange delegate
  status : ∀ op ∈ ops, op.status = none ∨ op.status = some ""
  kind : p.kind = .delegation
  account : ∃ a, fee.account = some a ∧ a.address = p.feePayer ∧ tokenIdOfAccount a = some p.feeToken
  payer : p.feePayer = p.source
  target : delegate.metadata = some (.assoc [("delegate_change_target", p.receiver)])
  feeAmount : ∃ x y, fee.amount = some x ∧ negated x = .ok y ∧ Uint64.ofString y.value = .ok p.fee

theorem delegation_parts {p : Partial} (h : Converts ops memo validUntil .delegation (.ok p)) :
    ∃ fee delegate, DelegationParts ops p fee delegate := by
  generalize he : (Except.ok p : Exn Partial) = e at h
  cases h with
  | delegation hlen ha hfeeTok hb hstatus hy =>
    obtain ⟨fee, hfee, he⟩ := Exn.andThen_eq_ok.1 he.symm
    cases he
    obtain ⟨feeOp, hfeeOp, hfa⟩ := accountOf_eq_ok.1 ha
    obtain ⟨feeOp', hfeeOp', a', hfa', hfeeTok⟩ := tokenOf_eq_ok.1 hfeeTok
    cases hfeeOp.unique hfeeOp'
    cases hfa.symm.trans hfa'
    obtain ⟨delegate, hdelegate, htarget⟩ := fieldOf_eq_ok.1 hb
    obtain ⟨feeOp', hfeeOp', y, hyamount, hy'⟩ := paymentAmountY_eq_ok.1 hy
    cases hfeeOp.unique hfeeOp'
    obtain ⟨u, hu⟩ := hstatus
    exact ⟨feeOp, delegate, hlen, hfeeOp, hdelegate, statusEmpty_eq_ok.1 hu, rfl, ⟨_, hfa, rfl, hfeeTok⟩, rfl,
      htarget, y, _, hyamount, hy', hfee⟩

theorem DelegationParts.perm {p : Partial} {fee delegate : Operation} (h : DelegationParts ops p fee delegate) :
    ops.Perm [fee, delegate] := by
  refine perm_of_found h.length (fun op hop => ?_) ?_
  · rcases List.mem_cons.1 hop with rfl | hop
    · exact h.foundFee.mem
    · rw [List.mem_singleton.1 hop]
      exact h.foundDelegate.mem
  · rw [List.map_cons, List.map_singleton, h.foundFee.type, h.foundDelegate.type]
    decide

theorem delegation_describes {p : Partial} (h : Converts ops memo validUntil .delegation (.ok p))
    (hfee : p.fee ≠ 0) : Describes ops p ↔ PlainDelegation ops := by
  obtain ⟨fee, delegate, hparts⟩ := delegation_parts h
  obtain ⟨a, hfa, haddress, hfeeTok⟩ := hparts.account
  obtain ⟨x, y, hxamount, hy, hfeeValue⟩ := hparts.feeAmount
  have hfeeLt : p.fee.val < 2 ^ 63 := converted_lt hy hfeeValue
  have hops : toOperations none p = .ok [placed (feeOp p) 0 none, placed (delegateOp p) 1 none] := by
    rw [toOperations_delegation hparts.kind hfee, if_pos hfeeLt]
  have hdescribes : Describes ops p ↔ (ops.map stripped).Perm [feeOp p, delegateOp p] := by
    constructor
    · intro h
      obtain ⟨ops', hops', hperm⟩ := h
      rw [hops] at hops'
      cases hops'
      exact hperm
    · intro h
      exact ⟨_, hops, h⟩
  rw [hdescribes]
  constructor
  · intro hperm fee' delegate' hfee' hdelegate'
    cases hparts.foundFee.unique hfee'
    cases hparts.foundDelegate.unique hdelegate'
    have hmember : ∀ {k : OperationType} {op : Operation}, Found ops k op →
        (stripped op = feeOp p ∧ k = .feePayment) ∨ (stripped op = delegateOp p ∧ k = .delegateChange) := by
      intro k op hop
      obtain ⟨op', hmem, heq, htype⟩ := stripped_of_perm hperm hop.mem
      rw [hop.type] at htype
      rcases List.mem_cons.1 hmem with rfl | hmem
      · exact .inl ⟨heq, (OperationType.name_inj (k := .feePayment) htype).symm⟩
      · obtain rfl := List.mem_singleton.1 hmem
        exact .inr ⟨heq, (OperationType.name_inj (k := .delegateChange) htype).symm⟩
    have hf : stripped fee = feeOp p := by
      rcases hmember hparts.foundFee with h | h
      · exact h.1
      · cases h.2
    have hd : stripped delegate = delegateOp p := by
      rcases hmember hparts.foundDelegate with h | h
      · cases h.2
      · exact h.1
    refine ⟨⟨p.feeToken, p.fee, hfeeLt, carries_of_stripped hf⟩, congrArg Operation.coinChange hd,
      congrArg Operation.amount hd, ?_⟩
    intro a' ha'
    obtain rfl := Option.some.inj (hfa.symm.trans ha')
    rw [haddress, hparts.payer]
    exact congrArg Operation.account hd
  · intro hplain
    obtain ⟨⟨tok, m, hm, hcf⟩, hcoin, hamount, haccount⟩ :=
      hplain fee delegate hparts.foundFee hparts.foundDelegate
    obtain ⟨pk, hpk⟩ := hcf.account
    have haccount := haccount a hfa
    obtain rfl := Option.some.inj (hfa.symm.trans hpk)
    rw [tokenIdOfAccount_accountId] at hfeeTok
    have hfeeTok := Option.some.inj hfeeTok
    obtain rfl := Option.some.inj (hxamount.symm.trans hcf.amount)
    have hfeeValue := converted_taken hm hy hfeeValue
    have hempty := hparts.status
    have hf : stripped fee = feeOp p := by
      refine stripped_eq hparts.foundFee.type (hempty _ hparts.foundFee.mem) hcf.coinChange ?_ ?_ hcf.metadata
      · rw [hfa, ← haddress, ← hfeeTok]
        rfl
      · rw [hcf.amount, ← hfeeTok, hfeeValue]
    have hd : stripped delegate = delegateOp p := by
      refine stripped_eq hparts.foundDelegate.type (hempty _ hparts.foundDelegate.mem) hcoin ?_ hamount
        hparts.target
      rw [haccount, haddress, hparts.payer]
    rw [← hf, ← hd]
    exact hparts.perm.map stripped

/-! ## Main result -/

/-- The fee is the one that is found. -/
theorem pays_iff {k : Kind} {p : Partial} (h : Converts ops memo validUntil k (.ok p))
    (hk : k = .payment ∨ k = .delegation) : p.fee ≠ 0 ↔ Pays ops := by
  have hfee : ∃ op x y, Found ops .feePayment op ∧ op.amount = some x ∧ negated x = .ok y ∧
      Uint64.ofString y.value = .ok p.fee := by
    rcases hk with rfl | rfl
    · obtain ⟨fee, source, receiver, n, hparts⟩ := payment_parts h
      obtain ⟨x, y, hx, hy, hvalue⟩ := hparts.feeAmount
      exact ⟨fee, x, y, hparts.foundFee, hx, hy, hvalue⟩
    · obtain ⟨fee, delegate, hparts⟩ := delegation_parts h
      obtain ⟨x, y, hx, hy, hvalue⟩ := hparts.feeAmount
      exact ⟨fee, x, y, hparts.foundFee, hx, hy, hvalue⟩
  obtain ⟨op, x, y, hop, hx, hy, hvalue⟩ := hfee
  obtain ⟨i, hi, rfl⟩ := negated_ok.1 hy
  obtain ⟨hmin, hval⟩ := (ofString_neg (Int64.ofString_fits hi)).1 hvalue
  have hzero : p.fee = 0 ↔ p.fee.val = 0 := Fin.ext_iff
  constructor
  · intro hne
    refine ⟨op, x, i, hop, hx, hi, ?_⟩
    have hval0 : p.fee.val ≠ 0 := fun h => hne (hzero.2 h)
    omega
  · intro hpays hne
    obtain ⟨op', x', i', hop', hx', hi', hneg⟩ := hpays
    cases hop.unique hop'
    cases hx.symm.trans hx'
    cases hi.symm.trans hi'
    have hval0 : p.fee.val = 0 := hzero.1 hne
    omega

theorem kind_of_converts {k : Kind} {p : Partial} (h : Converts ops memo validUntil k (.ok p)) : p.kind = k := by
  generalize he : (Except.ok p : Exn Partial) = e at h
  cases h with
  | payment hlen ha htok hfeeTok hb hstatus hx hy =>
    obtain ⟨amount, hamount, he⟩ := Exn.andThen_eq_ok.1 he.symm
    obtain ⟨fee, hfee, he⟩ := Exn.andThen_eq_ok.1 he
    cases he
    rfl
  | delegation =>
    obtain ⟨fee, hfee, he⟩ := Exn.andThen_eq_ok.1 he.symm
    cases he
    rfl
  | createToken =>
    obtain ⟨fee, hfee, he⟩ := Exn.andThen_eq_ok.1 he.symm
    cases he
    rfl
  | createTokenAccount =>
    obtain ⟨fee, hfee, he⟩ := Exn.andThen_eq_ok.1 he.symm
    cases he
    rfl
  | mintTokens =>
    obtain ⟨amount, hamount, he⟩ := Exn.andThen_eq_ok.1 he.symm
    obtain ⟨fee, hfee, he⟩ := Exn.andThen_eq_ok.1 he
    cases he
    rfl

/-- What is returned is converted by the parser of its kind. -/
theorem converts_of_ofOperations {p : Partial} (h : ofOperations memo validUntil ops = .ok (.ok p)) :
    Converts ops memo validUntil p.kind (.ok p) := by
  obtain ⟨-, k, hk⟩ := ofOperations_eq_ok.1 h
  have hconverts := parser_eq_ok.1 hk
  rw [kind_of_converts hconverts]
  exact hconverts

/-- If nothing raises, a list that passes the checks of a kind gives a command
of the kind. -/
theorem ofOperations_of_passes (hreturns : ∃ r, ofOperations memo validUntil ops = .ok r) {k : Kind}
    (hk : Passes ops k) : ∃ p, p.kind = k ∧ ofOperations memo validUntil ops = .ok (.ok p) := by
  have hconverts : ∃ e, Converts ops memo validUntil k e := converts_of_passes hk
  obtain ⟨e, he⟩ := hconverts
  have hparsers := ofOperations_returns.1 hreturns
  obtain ⟨p, rfl⟩ := ((parser_returns memo validUntil).1 (hparsers k)).2 e he
  exact ⟨p, kind_of_converts he, ofOperations_eq_ok.2 ⟨hparsers, k, parser_eq_ok.2 he⟩⟩

/-- **Parsing is safe** exactly for operations whose amounts are numerals where
they are read, and whose payment or delegation is plain. -/
theorem safe_iff (memo : Option String) (validUntil : Option Uint32) (ops : List Operation) :
    Safe memo validUntil ops ↔ Readable ops ∧ (Pays ops → Passes ops .payment → PlainPayment ops) ∧
      (Pays ops → Passes ops .delegation → PlainDelegation ops) := by
  constructor
  · intro h
    refine ⟨returns_iff.1 h.returns, fun hpays hpass => ?_, fun hpays hpass => ?_⟩
    · obtain ⟨p, hkind, hp⟩ := ofOperations_of_passes h.returns hpass
      have hconverts := hkind ▸ converts_of_ofOperations hp
      have hfee := (pays_iff hconverts (.inl rfl)).2 hpays
      exact (payment_describes hconverts hfee).1 (h.describes p hp (.inl hkind) hfee)
    · obtain ⟨p, hkind, hp⟩ := ofOperations_of_passes h.returns hpass
      have hconverts := hkind ▸ converts_of_ofOperations hp
      have hfee := (pays_iff hconverts (.inr rfl)).2 hpays
      exact (delegation_describes hconverts hfee).1 (h.describes p hp (.inr hkind) hfee)
  · intro h
    obtain ⟨hreadable, hpayment, hdelegation⟩ := h
    refine ⟨returns_iff.2 hreadable, fun k l p q hk hl => accepts_unique hk hl, fun p hp hkind hfee => ?_⟩
    have hconverts := converts_of_ofOperations hp
    rcases hkind with hkind | hkind
    · rw [hkind] at hconverts
      have hpays := (pays_iff hconverts (.inl rfl)).1 hfee
      exact (payment_describes hconverts hfee).2 (hpayment hpays (passes_of_converts hconverts))
    · rw [hkind] at hconverts
      have hpays := (pays_iff hconverts (.inr rfl)).1 hfee
      exact (delegation_describes hconverts hfee).2 (hdelegation hpays (passes_of_converts hconverts))

/-- A fee that is not a numeral. -/
def wordFee : Operation where
  operationIdentifier := operationIdentifier 0
  relatedOperations := none
  type := "fee_payment"
  status := none
  account := none
  amount := some { mina 5 with value := "five" }
  coinChange := none
  metadata := none

/-- It is not refused: it raises. -/
theorem word_fee_raises : ¬ ∀ memo validUntil ops, Safe memo validUntil ops := by
  intro h
  obtain ⟨i, hi⟩ := (returns_iff.1 (h none none [wordFee]).returns).fee wordFee _ rfl rfl
  have hfive : Int64.ofString "five" = .error "Int64.of_string" := by decide
  rw [show ({ mina 5 with value := "five" } : Amount).value = "five" from rfl, hfive] at hi
  cases hi

end Mina.Rosetta
