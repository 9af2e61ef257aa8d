/-
Which transactions are read back from what they are rendered as
(`reads_back_iff`).

What comes back is one function of the command (`restored`). Of a command that
the parsers return, a record leaves out more than its kind tells: the token of
the fee, which only a payment has in another field; the payer of a minting,
who need not be the owner of the token; and of the creation of an account the
kind itself comes back as that of a token.
-/
import Mina.Rosetta.Safety
import Mina.Rosetta.Transaction
import Mina.RandomOracleInput.CodingRoundTrip

namespace Mina

open RandomOracleInput.Coding

/-! ## Hex -/

namespace Hex

theorem charify_digit : ∀ x : Fin 16, (charify x).isAlphanum = true ∧ toU4 (charify x) = x := by decide

/-- A byte is two digits. -/
theorem byte_halves : ∀ c : Byte, (c.val &&& 0xF0) >>> 4 < 16 ∧ c.val &&& 0x0F < 16 ∧
    ((c.val &&& 0xF0) >>> 4) <<< 4 ||| (c.val &&& 0x0F) = c.val := by decide +kernel

theorem ofHex_toHex (data : List Byte) : ofHex (toHex data) = .ok (some data) := by
  rw [ofHex, toHex, String.toList_ofList]
  induction data with
  | nil => rfl
  | cons c data ih =>
    obtain ⟨hhi, hlo, hc⟩ := byte_halves c
    obtain ⟨hhiAlnum, hhiDigit⟩ := charify_digit ⟨_, hhi⟩
    obtain ⟨hloAlnum, hloDigit⟩ := charify_digit ⟨_, hlo⟩
    dsimp only at hhiAlnum hhiDigit hloAlnum hloDigit
    have hbyte : ofIntExn c.val = .ok c := dif_pos c.isLt
    rw [List.flatMap_cons, List.cons_append, List.cons_append, List.nil_append, ofChunks, hhiAlnum, hloAlnum,
      Bool.and_self, if_pos rfl, hhiDigit, hloDigit, hc, hbyte, Exn.andThen_ok, ih, Exn.andThen_ok]
    rfl

end Hex

namespace Rosetta.Transaction

open RandomOracleInput

/-! ## The input of the random oracle -/

section

variable {F S : Type} (e : Encoding F S)

/-- The bytes of a field. -/
def fieldBytes (field : F) : List Byte := toBytes (e.unpack field).reverse

theorem stringOfField_bytes (field : F) : stringOfField e field = .ok (fieldBytes e field) :=
  Coding.stringOfField_eq _

theorem length_fieldBytes (field : F) : (fieldBytes e field).length = 32 :=
  length_field (by rw [List.length_reverse, e.length_unpack])

/-- The field of some bytes. -/
def bytesField (s : List Byte) : F := e.project ((bytesBits s).take 255).reverse

theorem fieldOfString_bytes (s : List Byte) : fieldOfString e s = .ok (bytesField e s) := by
  rw [fieldOfString, Coding.fieldOfString_eq]
  rfl

theorem bytesField_fieldBytes (field : F) : bytesField e (fieldBytes e field) = field := by
  have hlen : (e.unpack field).reverse.length = 255 := by rw [List.length_reverse, e.length_unpack]
  rw [bytesField, fieldBytes, field_toBytes hlen, List.reverse_reverse, e.project_unpack]

/-- What an input is written as. -/
def inputBytes (t : RandomOracleInput F Bool) : List Byte :=
  wordBytes t.fieldElements.length ++ (t.fieldElements.map (fieldBytes e)).flatten ++
    wordBytes t.bits.length ++ toBytes t.bits

theorem serialize_input (t : RandomOracleInput F Bool) :
    Coding.serialize (stringOfField e) id id t = .ok (inputBytes e t) :=
  serialize_ok (fun x _ => stringOfField_bytes e x) fun x _ => length_fieldBytes e x

theorem serialize_signer (t : RandomOracleInput F Bool) :
    ∃ r, Coding2.serialize (stringOfField e) e.project t = .ok r := by
  have hcheck : checkFields (stringOfField e) t.fieldElements = .ok () :=
    checkFields_ok (fun x _ => stringOfField_bytes e x) fun x _ => length_fieldBytes e x
  refine ⟨⟨(Coding2.serialize' t e.project).prefixFields.map (fieldBytes e),
    (Coding2.serialize' t e.project).suffixFields.map (fieldBytes e)⟩, ?_⟩
  rw [Coding2.serialize, hcheck, Exn.andThen_ok]
  dsimp only
  rw [mapList_eq_map fun x _ => stringOfField_bytes e x, Exn.andThen_ok,
    mapList_eq_map fun x _ => stringOfField_bytes e x, Exn.andThen_ok]

/-- The lengths are written in 32 bits. -/
theorem deserialize_input (t : RandomOracleInput F Bool) :
    Coding.deserialize (fieldOfString e) id (inputBytes e t) = .ok ⟨t.fieldElements, [t.bits]⟩ ↔
      t.fieldElements.length < 2 ^ 32 ∧ t.bits.length < 2 ^ 32 := by
  constructor
  · intro h
    obtain ⟨fs, n, bytes, hlayout, heq⟩ := (deserialize_ok_iff fun s _ => fieldOfString_bytes e s).1 h
    injection heq with hfields hbits
    injection hbits with hbits
    have hcount := hlayout.fields
    have hn := hlayout.bits
    rw [hfields, hbits, List.length_map, List.length_take]
    exact ⟨hcount, lt_of_le_of_lt (Nat.min_le_left _ _) hn⟩
  · intro h
    have hlayout : Layout (inputBytes e t) (t.fieldElements.map (fieldBytes e)) t.bits.length (toBytes t.bits) := by
      refine ⟨by rw [List.length_map]; exact h.1, fun f hf => ?_, h.2, by rw [List.length_map]; rfl⟩
      obtain ⟨x, hx, rfl⟩ := List.mem_map.1 hf
      exact length_fieldBytes e x
    obtain ⟨k, -, htail⟩ := bytesBits_toBytes t.bits
    rw [hlayout.deserialize fun s _ => fieldOfString_bytes e s, List.map_map, htail, List.take_left]
    congr 2
    refine (List.map_congr_left fun x hx => ?_).trans (List.map_id _)
    exact bytesField_fieldBytes e x

end

/-! ## Commands -/

/-- What of a command is left when it is read back. -/
def restored (command : Partial) : Partial :=
  match command.kind with
  | .payment => { command with feePayer := command.source, feeToken := command.token }
  | .delegation =>
    { command with
      feePayer := command.source, feeToken := TokenId.default, token := TokenId.default, amount := none }
  | .createToken =>
    { command with
      source := command.receiver, feePayer := command.receiver, feeToken := TokenId.default
      token := TokenId.default, amount := none }
  | .createTokenAccount =>
    { command with
      kind := .createToken, feePayer := command.receiver, feeToken := TokenId.default, amount := none }
  | .mintTokens => { command with feePayer := command.source, feeToken := TokenId.default }

theorem amountOf_eq_ok {command : Partial} {amount : Uint64} :
    amountOf command = .ok amount ↔ command.amount = some amount := by
  rw [amountOf]
  cases command.amount with
  | none => simp
  | some n => simp

/-- What is rendered is read as what is left of it. -/
theorem read_renderCommand {nonce : Uint32} {command : Partial} {r : Rendered.Command}
    (h : renderCommand nonce command = .ok r) : r.commands.read = some (restored command, nonce) := by
  obtain ⟨kind, feePayer, source, receiver, feeToken, token, fee, amount, validUntil, memo⟩ := command
  cases kind with
  | payment =>
    obtain ⟨n, hn, hr⟩ := bind_eq_ok.1 h
    cases hr
    cases amountOf_eq_ok.1 hn
    rfl
  | delegation =>
    cases h
    rfl
  | createToken =>
    cases h
    rfl
  | createTokenAccount =>
    cases h
    rfl
  | mintTokens =>
    obtain ⟨n, hn, hr⟩ := bind_eq_ok.1 h
    cases hr
    cases amountOf_eq_ok.1 hn
    rfl

/-- What the parsers return. -/
inductive Returned (p : Partial) : Prop
  | payment {n : Uint64} : p.kind = .payment → p.feePayer = p.source → p.feeToken = p.token → p.amount = some n →
      Returned p
  | delegation : p.kind = .delegation → p.feePayer = p.source → p.token = TokenId.default → p.amount = none →
      Returned p
  | create : p.kind = .createToken ∨ p.kind = .createTokenAccount → p.feePayer = p.source → p.receiver = p.source →
      p.token = TokenId.default → p.amount = none → Returned p
  | mintTokens {n : Uint64} : p.kind = .mintTokens → p.amount = some n → Returned p

/-- The token of an account is read from at most one field. -/
theorem decode_cases {j : Option Json} {tok : Uint64} (h : TokenId.decode j = some tok) :
    j = none ∨ ∃ field, j = some (.assoc [field]) := by
  rw [TokenId.decode.eq_def] at h
  split at h
  · exact .inl rfl
  next key tokenId => exact .inr ⟨(key, tokenId), rfl⟩
  · cases h

theorem token_of_equal {a b : AccountIdentifier} (h : a.equal b = true) {tok tok' : Uint64}
    (ha : tokenIdOfAccount a = some tok) (hb : tokenIdOfAccount b = some tok') : tok = tok' := by
  rw [AccountIdentifier.equal, Bool.and_eq_true, Bool.and_eq_true] at h
  have hmetadata := h.2
  suffices hsame : a.metadata = b.metadata by
    rw [tokenIdOfAccount, hsame] at ha
    exact Option.some.inj (ha.symm.trans hb)
  rcases decode_cases hb with hnone | ⟨field, hsome⟩
  · rw [hnone] at hmetadata ⊢
    cases hj : a.metadata with
    | none => rfl
    | some j =>
      rw [hj] at hmetadata
      cases hmetadata
  · rw [hsome] at hmetadata ⊢
    cases hj : a.metadata with
    | none =>
      rw [hj] at hmetadata
      cases hmetadata
    | some j =>
      rw [hj] at hmetadata
      rw [Json.equal_field hmetadata]

theorem returned_of_converts {memo : Option String} {validUntil : Option Uint32} {ops : List Operation} {k : Kind}
    {p : Partial} (h : Converts ops memo validUntil k (.ok p)) : Returned p := by
  by_cases hpayment : k = .payment
  · subst hpayment
    obtain ⟨fee, source, receiver, n, hparts⟩ := payment_parts h
    obtain ⟨a, b, -, -, hequal, -, htoken, hfeeToken⟩ := hparts.accounts
    exact .payment hparts.kind hparts.payer (token_of_equal hequal htoken hfeeToken).symm hparts.amount
  · generalize he : (Except.ok p : Exn Partial) = e at h
    cases h with
    | payment => exact absurd rfl hpayment
    | delegation =>
      obtain ⟨fee, hfee, he⟩ := Exn.andThen_eq_ok.1 he.symm
      cases he
      exact .delegation rfl rfl rfl rfl
    | createToken =>
      obtain ⟨fee, hfee, he⟩ := Exn.andThen_eq_ok.1 he.symm
      cases he
      exact .create (.inl rfl) rfl rfl rfl rfl
    | createTokenAccount =>
      obtain ⟨fee, hfee, he⟩ := Exn.andThen_eq_ok.1 he.symm
      cases he
      exact .create (.inr rfl) rfl rfl rfl rfl
    | mintTokens =>
      obtain ⟨amount, hamount, he⟩ := Exn.andThen_eq_ok.1 he.symm
      obtain ⟨fee, hfee, he⟩ := Exn.andThen_eq_ok.1 he
      cases he
      exact .mintTokens rfl rfl

theorem exists_renderCommand {p : Partial} (h : Returned p) (nonce : Uint32) : ∃ r, renderCommand nonce p = .ok r := by
  obtain ⟨kind, feePayer, source, receiver, feeToken, token, fee, amount, validUntil, memo⟩ := p
  cases h with
  | payment hkind _ _ hamount =>
    cases hkind
    cases hamount
    exact ⟨_, rfl⟩
  | delegation hkind =>
    cases hkind
    exact ⟨_, rfl⟩
  | create hkind =>
    rcases hkind with hkind | hkind <;> cases hkind <;> exact ⟨_, rfl⟩
  | mintTokens hkind hamount =>
    cases hkind
    cases hamount
    exact ⟨_, rfl⟩

/-- Nothing is lost: a payment; a command whose fee is in the default token,
for which a minting is paid by the owner of the token. The creation of an
account is never restored. -/
def Restored (p : Partial) : Prop :=
  p.kind = .payment ∨ p.feeToken = TokenId.default ∧
    (p.kind = .delegation ∨ p.kind = .createToken ∨ p.kind = .mintTokens ∧ p.feePayer = p.source)

theorem restored_eq_iff {p : Partial} (h : Returned p) : restored p = p ↔ Restored p := by
  obtain ⟨kind, feePayer, source, receiver, feeToken, token, fee, amount, validUntil, memo⟩ := p
  cases h with
  | payment hkind hpayer hfeeToken =>
    dsimp only at hkind hpayer hfeeToken
    subst hkind hpayer hfeeToken
    exact iff_of_true rfl (.inl rfl)
  | delegation hkind hpayer htoken hamount =>
    dsimp only at hkind hpayer htoken hamount
    subst hkind hpayer htoken hamount
    simp [restored, Restored, eq_comm]
  | create hkind hpayer hreceiver htoken hamount =>
    dsimp only at hkind hpayer hreceiver htoken hamount
    subst hpayer hreceiver htoken hamount
    rcases hkind with rfl | rfl <;> simp [restored, Restored, eq_comm]
  | mintTokens hkind hamount =>
    dsimp only at hkind hamount
    subst hkind hamount
    simp [restored, Restored, eq_comm, and_comm]

/-! ## Transactions -/

section

variable {F S : Type} (e : Encoding F S) {command : Partial}

/-- A transaction is rendered, and its command and its nonce are read. -/
theorem unsigned_render (h : Returned command) (input : RandomOracleInput F Bool) (nonce : Uint32) :
    ∃ r, Unsigned.render e ⟨input, command, nonce⟩ = .ok (.ok r) ∧
      r.randomOracleInput = Hex.toHex (inputBytes e input) ∧ r.read = some (restored command, nonce) := by
  obtain ⟨c, hc⟩ := exists_renderCommand h nonce
  obtain ⟨signer, hsigner⟩ := serialize_signer e input
  refine ⟨{ c.commands with
    randomOracleInput := Hex.toHex (inputBytes e input)
    signerInput := signer.map Hex.toHex }, ?_, rfl, read_renderCommand hc⟩
  rw [Unsigned.render, serialize_input, Exn.andThen_ok, hsigner, Exn.andThen_ok, hc]
  rfl

theorem unsigned_reads_back (h : Returned command) (input : RandomOracleInput F Bool) (nonce : Uint32) :
    (∀ r, Unsigned.render e ⟨input, command, nonce⟩ = .ok (.ok r) →
        Unsigned.ofRendered e r = .ok (.ok ⟨⟨input.fieldElements, [input.bits]⟩, command, nonce⟩)) ↔
      input.fieldElements.length < 2 ^ 32 ∧ input.bits.length < 2 ^ 32 ∧ Restored command := by
  obtain ⟨r, hr, hinput, hread⟩ := unsigned_render e h input nonce
  rw [← and_assoc, ← deserialize_input e input, ← restored_eq_iff h]
  have hof : Unsigned.ofRendered e r = .ok (.ok ⟨⟨input.fieldElements, [input.bits]⟩, command, nonce⟩) ↔
      Coding.deserialize (fieldOfString e) id (inputBytes e input) = .ok ⟨input.fieldElements, [input.bits]⟩ ∧
        restored command = command := by
    rw [Unsigned.ofRendered, hinput, Hex.ofHex_toHex, Exn.andThen_ok, Exn.valueExn_some, Exn.andThen_ok, hread]
    cases Coding.deserialize (fieldOfString e) id (inputBytes e input) with
    | error error => cases error <;> simp
    | ok x => simp
  rw [← hof]
  constructor
  · exact fun hall => hall r hr
  · intro hback r' hr'
    cases Except.ok.inj (Except.ok.inj (hr.symm.trans hr'))
    exact hback

theorem signed_reads_back (h : Returned command) (nonce : Uint32) (signature : S) :
    (∀ r, Signed.render e ⟨command, nonce, signature⟩ = .ok r →
        Signed.ofRendered e r = .ok ⟨command, nonce, signature⟩) ↔ Restored command := by
  obtain ⟨c, hc⟩ := exists_renderCommand h nonce
  rw [← restored_eq_iff h, Signed.render, hc]
  have hof : Signed.ofRendered e { c.commands with signature := e.encode signature } =
      .ok ⟨restored command, nonce, signature⟩ := by
    rw [Signed.ofRendered, e.decode_encode]
    dsimp only
    rw [read_renderCommand hc]
  constructor
  · intro hall
    have hback := hof.symm.trans (hall _ rfl)
    exact congrArg Signed.command (Except.ok.inj hback)
  · intro hrestored r hr
    cases hr
    rw [hof, hrestored]

/-- **Rendered transactions are read back** exactly if nothing of the command
is lost, and the lengths of the input fit in 32 bits. -/
theorem reads_back_iff {memo : Option String} {validUntil : Option Uint32} {ops : List Operation}
    (h : ofOperations memo validUntil ops = .ok (.ok command)) (nonce : Uint32) :
    (∀ input : RandomOracleInput F Bool,
      (∀ r, Unsigned.render e ⟨input, command, nonce⟩ = .ok (.ok r) →
          Unsigned.ofRendered e r = .ok (.ok ⟨⟨input.fieldElements, [input.bits]⟩, command, nonce⟩)) ↔
        input.fieldElements.length < 2 ^ 32 ∧ input.bits.length < 2 ^ 32 ∧ Restored command) ∧
    ∀ signature : S,
      (∀ r, Signed.render e ⟨command, nonce, signature⟩ = .ok r →
          Signed.ofRendered e r = .ok ⟨command, nonce, signature⟩) ↔ Restored command := by
  have hreturned := returned_of_converts (converts_of_ofOperations h)
  exact ⟨fun input => unsigned_reads_back e hreturned input nonce,
    fun signature => signed_reads_back e hreturned nonce signature⟩

end

/-! ## An account -/

/-- A field as its bits, and a signature as its text. -/
def bitsEncoding : Encoding { bits : List Bool // bits.length = 255 } String where
  unpack x := x.val
  project bits := ⟨(bits ++ List.replicate 255 false).take 255, by
    rw [List.length_take, List.length_append, List.length_replicate]
    omega⟩
  length_unpack x := x.property
  project_unpack x := Subtype.ext (List.take_left' x.property)
  encode s := s
  decode := some
  decode_encode _ := rfl

/-- The one operation of the creation of an account. -/
def accountFee : Operation where
  operationIdentifier := operationIdentifier 0
  relatedOperations := none
  type := "fee_payment"
  status := some "Pending"
  account := some (accountId "Alice" 1)
  amount := some (taken 1 2)
  coinChange := none
  metadata := none

def newAccount : Partial where
  kind := .createTokenAccount
  feePayer := "Alice"
  source := "Alice"
  receiver := "Alice"
  feeToken := 1
  token := 1
  fee := 2
  amount := none
  validUntil := none
  memo := none

theorem newAccount_returned : ofOperations none none [accountFee] = .ok (.ok newAccount) := by
  have hy : paymentAmountY [accountFee] = .ok (.ok (Rosetta.token 1 2)) :=
    paymentAmountY_eq_ok.2 ⟨accountFee, rfl, _, rfl, negated_taken (by decide)⟩
  have hcommand : plainCommand none none .createTokenAccount "Alice" "Alice" 1 (Rosetta.token 1 2) = .ok newAccount := by
    rw [plainCommand, ofString_token]
    rfl
  have hconverts : Converts [accountFee] none none .createTokenAccount (.ok newAccount) := by
    rw [← hcommand]
    refine .createTokenAccount (a := accountId "Alice" 1) rfl (accountOf_eq_ok.2 ⟨accountFee, rfl, rfl⟩)
      (tokenOf_eq_ok.2 ⟨accountFee, rfl, _, rfl, tokenIdOfAccount_accountId _ _⟩) ⟨(), ?_⟩ hy
    refine statusPending_eq_ok.2 fun op hop => ?_
    rw [List.mem_singleton.1 hop]
    rfl
  exact ofOperations_of_converts hconverts (checksReturn_of ⟨_, hy⟩ ⟨_, rfl⟩ ⟨_, rfl⟩)

/-- It is read back as the creation of a token. -/
theorem new_account_changes : ¬ ∀ memo validUntil ops command nonce,
    ofOperations memo validUntil ops = .ok (.ok command) →
      (∀ input r, Unsigned.render bitsEncoding ⟨input, command, nonce⟩ = .ok (.ok r) →
        Unsigned.ofRendered bitsEncoding r = .ok (.ok ⟨⟨input.fieldElements, [input.bits]⟩, command, nonce⟩)) ∧
      ∀ signature r, Signed.render bitsEncoding ⟨command, nonce, signature⟩ = .ok r →
        Signed.ofRendered bitsEncoding r = .ok ⟨command, nonce, signature⟩ := by
  intro h
  have hsigned := (h none none [accountFee] newAccount 0 newAccount_returned).2 "signature"
  have hback : (.ok ⟨newAccount, 0, "signature"⟩ : Except Errors (Signed String)) =
      .ok ⟨{ newAccount with kind := .createToken }, 0, "signature"⟩ := (hsigned _ rfl).symm
  injection hback with hback
  exact absurd (congrArg Signed.command hback) (by decide)

/-- A payment of 5 for a fee of 2 is read back. -/
theorem reads_back_iff_payment : ∃ ops, ofOperations none none ops = .ok (.ok (smallPayment 2)) ∧
    ∀ r, Signed.render bitsEncoding ⟨smallPayment 2, 0, "signature"⟩ = .ok r →
      Signed.ofRendered bitsEncoding r = .ok ⟨smallPayment 2, 0, "signature"⟩ := by
  obtain ⟨ops, -, hops⟩ := read_back (smallPayment_simple 2) (by decide) (by decide) fun amount h => by
    cases h
    decide
  exact ⟨ops, hops, ((reads_back_iff bitsEncoding hops 0).2 "signature").2 (.inl rfl)⟩

end Rosetta.Transaction

end Mina
