/-
What the five parsers of `of_operations` accept, and when they return.

A parser's checks pass or they do not (`Passes`); when they pass, its numerals
are converted. At most one parser's checks pass on the same operations
(`passes_unique`): the numbers of operations tell a payment and a token account
from the others, the statuses a delegation from the deprecated kinds, and the
kinds of operations these from each other.
-/
import Mina.Rosetta.UserCommandInfo

namespace Mina.Rosetta

namespace Validation

variable {α β : Type}

def Passed (v : Validation α) : Prop := ∃ a, v = .ok a

theorem map_eq_ok {f : α → β} {v : Validation α} {b : β} : v.map f = .ok b ↔ ∃ a, v = .ok a ∧ f a = b := by
  cases v with
  | ok a => exact ⟨fun h => ⟨a, rfl, Except.ok.inj h⟩, fun h => by obtain ⟨a', ha, rfl⟩ := h; cases ha; rfl⟩
  | error es =>
    refine iff_of_false (fun h => (by cases h)) fun h => ?_
    obtain ⟨a, ha, -⟩ := h
    cases ha

theorem apply_eq_ok {ft : Validation (α → β)} {v : Validation α} {b : β} :
    ft.apply v = .ok b ↔ ∃ f, ft = .ok f ∧ ∃ a, v = .ok a ∧ f a = b := by
  constructor
  · intro h
    cases ft with
    | ok f =>
      cases v with
      | ok a => exact ⟨f, rfl, a, rfl, Except.ok.inj h⟩
      | error es => cases h
    | error es =>
      cases v with
      | ok a => cases h
      | error es' => cases h
  · intro h
    obtain ⟨f, rfl, a, rfl, rfl⟩ := h
    rfl

theorem bind_eq_ok {f : α → Validation β} {v : Validation α} {b : β} : v.bind f = .ok b ↔ ∃ a, v = .ok a ∧ f a = .ok b := by
  cases v with
  | ok a => exact ⟨fun h => ⟨a, rfl, h⟩, fun h => by obtain ⟨a', ha, h⟩ := h; cases ha; exact h⟩
  | error es =>
    refine iff_of_false (fun h => (by cases h)) fun h => ?_
    obtain ⟨a, ha, -⟩ := h
    cases ha

theorem run_eq_ok {v : Validation (Exn α)} {a : α} : v.run = .ok (.ok a) ↔ v = .ok (.ok a) := by
  cases v with
  | ok x =>
    cases x with
    | ok b =>
      rw [Except.ok.injEq, Except.ok.injEq, run, Exn.andThen_ok, Except.ok.injEq, Except.ok.injEq]
    | error e => exact iff_of_false (fun h => (by cases h)) fun h => (by cases h)
  | error es => exact iff_of_false (fun h => (by cases h)) fun h => (by cases h)

/-- The function that is mapped is all that may raise. -/
theorem run_returns {v : Validation (Exn α)} : (∃ r, v.run = .ok r) ↔ ∀ x, v = .ok x → ∃ a, x = .ok a := by
  constructor
  · intro h x hx
    obtain ⟨r, hr⟩ := h
    rw [hx, run, Exn.andThen_eq_ok] at hr
    obtain ⟨a, ha, -⟩ := hr
    exact ⟨a, ha⟩
  · intro h
    cases v with
    | ok x =>
      obtain ⟨a, rfl⟩ := h x rfl
      exact ⟨.ok a, rfl⟩
    | error es => exact ⟨.error es, rfl⟩

end Validation

open Validation

section Ops

variable {ops : List Operation}

/-! ## The operations that are found -/

/-- The first operation of a kind. -/
def Found (ops : List Operation) (k : OperationType) (op : Operation) : Prop :=
  ops.find? (fun op => op.type = k.name) = some op

theorem findKind_eq_ok {k : OperationType} {op : Operation} : findKind ops k = .ok op ↔ Found ops k op := by
  unfold findKind Found
  split
  next op' h => rw [h, Except.ok.injEq, Option.some.injEq]
  next h =>
    rw [h]
    exact iff_of_false (fun h => (by cases h)) fun h => (by cases h)

theorem Found.mem {k : OperationType} {op : Operation} (h : Found ops k op) : op ∈ ops := List.mem_of_find?_eq_some h

theorem Found.type {k : OperationType} {op : Operation} (h : Found ops k op) : op.type = k.name := by
  have htrue := List.find?_some h
  exact of_decide_eq_true htrue

theorem Found.unique {k : OperationType} {op op' : Operation} (h : Found ops k op) (h' : Found ops k op') : op = op' :=
  Option.some.inj (h.symm.trans h')

theorem lengthIs_eq_ok {n : Nat} {u : Unit} : lengthIs ops n = .ok u ↔ ops.length = n := by
  unfold lengthIs
  split
  next h => exact iff_of_true rfl h
  next h => exact iff_of_false (fun h => (by cases h)) h

theorem accountOf_eq_ok {k : OperationType} {a : AccountIdentifier} :
    accountOf ops k = .ok a ↔ ∃ op, Found ops k op ∧ op.account = some a := by
  rw [accountOf, Validation.bind_eq_ok]
  refine exists_congr fun op => and_congr findKind_eq_ok ?_
  cases op.account with
  | none => exact iff_of_false (fun h => (by cases h)) fun h => (by cases h)
  | some b => rw [Except.ok.injEq, Option.some.injEq]

theorem tokenOf_eq_ok {k : OperationType} {tok : Uint64} :
    tokenOf ops k = .ok tok ↔ ∃ op, Found ops k op ∧ ∃ a, op.account = some a ∧ tokenIdOfAccount a = some tok := by
  rw [tokenOf, Validation.bind_eq_ok]
  refine exists_congr fun op => and_congr findKind_eq_ok ?_
  cases op.account with
  | none =>
    refine iff_of_false (fun h => (by cases h)) fun h => ?_
    obtain ⟨a, ha, -⟩ := h
    cases ha
  | some b =>
    dsimp only
    constructor
    · intro h
      cases htoken : tokenIdOfAccount b with
      | none =>
        rw [htoken] at h
        cases h
      | some token =>
        rw [htoken] at h
        exact ⟨b, rfl, htoken.trans (congrArg some (Except.ok.inj h))⟩
    · intro h
      obtain ⟨a, ha, htoken⟩ := h
      cases ha
      rw [htoken]

theorem statusEmpty_eq_ok {u : Unit} :
    statusEmpty ops = .ok u ↔ ∀ op ∈ ops, op.status = none ∨ op.status = some "" := by
  have hall : (ops.all fun op => op.status = none || op.status = some "") = true ↔
      ∀ op ∈ ops, op.status = none ∨ op.status = some "" := by simp
  rw [← hall]
  unfold statusEmpty
  split
  next h => exact iff_of_true rfl h
  next h => exact iff_of_false (fun h => (by cases h)) h

theorem statusPending_eq_ok {u : Unit} : statusPending ops = .ok u ↔ ∀ op ∈ ops, op.status = some "Pending" := by
  have hall : (ops.all fun op => op.status = some "Pending") = true ↔ ∀ op ∈ ops, op.status = some "Pending" := by simp
  rw [← hall]
  unfold statusPending
  split
  next h => exact iff_of_true rfl h
  next h => exact iff_of_false (fun h => (by cases h)) h

theorem fieldOf_eq_ok {k : OperationType} {key s : String} :
    fieldOf ops k key = .ok s ↔ ∃ op, Found ops k op ∧ op.metadata = some (.assoc [(key, s)]) := by
  rw [fieldOf, Validation.bind_eq_ok]
  refine exists_congr fun op => and_congr findKind_eq_ok ?_
  constructor
  · intro h
    split at h
    next key' s' hmeta =>
      split at h
      next hkey =>
        rw [hmeta, hkey, Except.ok.inj h]
      next => cases h
    next => cases h
    next => cases h
  · intro h
    rw [h]
    exact if_pos rfl

theorem absent_eq_ok {k : OperationType} {u : Unit} : absent ops k = .ok u ↔ ∀ op, ¬ Found ops k op := by
  unfold absent
  split
  next op hop =>
    rw [findKind_eq_ok] at hop
    exact iff_of_false (fun h => (by cases h)) fun h => h op hop
  next es hes =>
    refine iff_of_true rfl fun op hop => ?_
    rw [findKind_eq_ok.2 hop] at hes
    cases hes

theorem mintAmount_eq_ok {x : Amount} :
    mintAmount ops = .ok x ↔ ∃ op, Found ops .mintTokens op ∧ op.amount = some x := by
  rw [mintAmount, Validation.bind_eq_ok]
  refine exists_congr fun op => and_congr findKind_eq_ok ?_
  cases op.amount with
  | none => exact iff_of_false (fun h => (by cases h)) fun h => (by cases h)
  | some b => rw [Except.ok.injEq, Option.some.injEq]

theorem paymentAccountA_eq_ok {a : AccountIdentifier} : paymentAccountA ops = .ok a ↔
    ∃ source, Found ops .paymentSourceDec source ∧ ∃ fee, Found ops .feePayment fee ∧
      source.account = some a ∧ ∃ b, fee.account = some b ∧ a.equal b = true := by
  rw [paymentAccountA, Validation.bind_eq_ok]
  refine exists_congr fun source => and_congr findKind_eq_ok ?_
  rw [Validation.bind_eq_ok]
  refine exists_congr fun fee => and_congr findKind_eq_ok ?_
  constructor
  · intro h
    split at h
    next x y hx hy =>
      split at h
      next heq =>
        cases h
        exact ⟨hx, y, hy, heq⟩
      next => cases h
    next => cases h
  · intro h
    obtain ⟨hx, y, hy, heq⟩ := h
    rw [hx, hy]
    exact if_pos heq

theorem paymentAmountY_eq_ok {y : Amount} : paymentAmountY ops = .ok (.ok y) ↔
    ∃ op, Found ops .feePayment op ∧ ∃ x, op.amount = some x ∧ negated x = .ok y := by
  unfold paymentAmountY
  split
  next es hes =>
    refine iff_of_false (fun h => (by cases h)) fun h => ?_
    obtain ⟨op, hop, -⟩ := h
    rw [findKind_eq_ok.2 hop] at hes
    cases hes
  next op hop =>
    rw [findKind_eq_ok] at hop
    constructor
    · intro h
      split at h
      next x hx =>
        obtain ⟨y', hy, heq⟩ := Exn.andThen_eq_ok.1 h
        cases heq
        exact ⟨op, hop, x, hx, hy⟩
      next => cases h
    · intro h
      obtain ⟨op', hop', x, hx, hy⟩ := h
      cases hop.unique hop'
      rw [hx]
      exact Exn.andThen_eq_ok.2 ⟨y, hy, rfl⟩

theorem paymentAmountX_eq_ok {y : Amount} : paymentAmountX ops = .ok (.ok y) ↔
    ∃ source, Found ops .paymentSourceDec source ∧ ∃ receiver, Found ops .paymentReceiverInc receiver ∧
      ∃ x, source.amount = some x ∧ receiver.amount = some y ∧ ∃ x', negated x = .ok x' ∧ x'.equal y = true := by
  unfold paymentAmountX
  split
  next es hes =>
    refine iff_of_false (fun h => (by cases h)) fun h => ?_
    obtain ⟨op, hop, -⟩ := h
    rw [findKind_eq_ok.2 hop] at hes
    cases hes
  next source hsource =>
    rw [findKind_eq_ok] at hsource
    split
    next es hes =>
      refine iff_of_false (fun h => (by cases h)) fun h => ?_
      obtain ⟨_, -, op, hop, -⟩ := h
      rw [findKind_eq_ok.2 hop] at hes
      cases hes
    next receiver hreceiver =>
      rw [findKind_eq_ok] at hreceiver
      constructor
      · intro h
        split at h
        next x y' hx hy =>
          obtain ⟨x', hx', heq⟩ := Exn.andThen_eq_ok.1 h
          split at heq
          next hequal =>
            cases heq
            exact ⟨source, hsource, receiver, hreceiver, x, hx, hy, x', hx', hequal⟩
          next => cases heq
        next => cases h
      · intro h
        obtain ⟨source', hsource', receiver', hreceiver', x, hx, hy, x', hx', hequal⟩ := h
        cases hsource.unique hsource'
        cases hreceiver.unique hreceiver'
        rw [hx, hy]
        exact Exn.andThen_eq_ok.2 ⟨x', hx', by rw [if_pos hequal]⟩

/-! ## When the checks return -/

theorem paymentAmountY_returns : (∃ v, paymentAmountY ops = .ok v) ↔
    ∀ op x, Found ops .feePayment op → op.amount = some x → ∃ i, Int64.ofString x.value = .ok i := by
  unfold paymentAmountY
  split
  next es hes =>
    refine iff_of_true ⟨_, rfl⟩ fun op _ hop => ?_
    rw [findKind_eq_ok.2 hop] at hes
    cases hes
  next op hop =>
    rw [findKind_eq_ok] at hop
    split
    next x hx =>
      constructor
      · intro h op' x' hop' hx'
        cases hop.unique hop'
        cases hx.symm.trans hx'
        obtain ⟨v, hv⟩ := h
        obtain ⟨y, hy, -⟩ := Exn.andThen_eq_ok.1 hv
        obtain ⟨i, hi, -⟩ := negated_ok.1 hy
        exact ⟨i, hi⟩
      · intro h
        obtain ⟨i, hi⟩ := h op x hop hx
        exact ⟨_, Exn.andThen_eq_ok.2 ⟨_, negated_ok.2 ⟨i, hi, rfl⟩, rfl⟩⟩
    next hx =>
      refine iff_of_true ⟨_, rfl⟩ fun op' x' hop' hx' => ?_
      cases hop.unique hop'
      cases hx.symm.trans hx'

theorem paymentAmountX_returns : (∃ v, paymentAmountX ops = .ok v) ↔
    ∀ source receiver x y, Found ops .paymentSourceDec source → Found ops .paymentReceiverInc receiver →
      source.amount = some x → receiver.amount = some y → ∃ i, Int64.ofString x.value = .ok i := by
  unfold paymentAmountX
  split
  next es hes =>
    refine iff_of_true ⟨_, rfl⟩ fun source _ _ _ hsource => ?_
    rw [findKind_eq_ok.2 hsource] at hes
    cases hes
  next source hsource =>
    rw [findKind_eq_ok] at hsource
    split
    next es hes =>
      refine iff_of_true ⟨_, rfl⟩ fun _ receiver _ _ _ hreceiver => ?_
      rw [findKind_eq_ok.2 hreceiver] at hes
      cases hes
    next receiver hreceiver =>
      rw [findKind_eq_ok] at hreceiver
      split
      next x y hx hy =>
        constructor
        · intro h source' receiver' x' y' hsource' _ hx' _
          cases hsource.unique hsource'
          cases hx.symm.trans hx'
          obtain ⟨v, hv⟩ := h
          obtain ⟨z, hz, -⟩ := Exn.andThen_eq_ok.1 hv
          obtain ⟨i, hi, -⟩ := negated_ok.1 hz
          exact ⟨i, hi⟩
        · intro h
          obtain ⟨i, hi⟩ := h source receiver x y hsource hreceiver hx hy
          exact ⟨_, Exn.andThen_eq_ok.2 ⟨_, negated_ok.2 ⟨i, hi, rfl⟩, rfl⟩⟩
      next hnone =>
        refine iff_of_true ⟨_, rfl⟩ fun source' receiver' x' y' hsource' hreceiver' hx' hy' => ?_
        cases hsource.unique hsource'
        cases hreceiver.unique hreceiver'
        exact absurd hy' (hnone x' y' hx')

theorem mintToken_returns : (∃ v, mintToken ops = .ok v) ↔ ∀ op, Found ops .mintTokens op → op.amount ≠ none := by
  unfold mintToken
  split
  next es hes =>
    refine iff_of_true ⟨_, rfl⟩ fun op hop => ?_
    rw [findKind_eq_ok.2 hop] at hes
    cases hes
  next op hop =>
    rw [findKind_eq_ok] at hop
    constructor
    · intro h op' hop' hnone
      cases hop.unique hop'
      rw [hnone] at h
      obtain ⟨v, hv⟩ := h
      cases hv
    · intro h
      obtain ⟨x, hx⟩ := Option.ne_none_iff_exists'.1 (h op hop)
      rw [hx]
      exact ⟨_, rfl⟩

/-! ## The parsers -/

variable (ops) in
/-- The checks of a parser pass. -/
def Passes : Kind → Prop
  | .payment => ops.length = 3 ∧ Passed (paymentAccountA ops) ∧ Passed (tokenOf ops .paymentSourceDec) ∧
      Passed (tokenOf ops .feePayment) ∧ Passed (accountOf ops .paymentReceiverInc) ∧ Passed (statusEmpty ops) ∧
      (∃ x, paymentAmountX ops = .ok (.ok x)) ∧ ∃ y, paymentAmountY ops = .ok (.ok y)
  | .delegation => ops.length = 2 ∧ Passed (accountOf ops .feePayment) ∧ Passed (tokenOf ops .feePayment) ∧
      Passed (fieldOf ops .delegateChange "delegate_change_target") ∧ Passed (statusEmpty ops) ∧
      ∃ y, paymentAmountY ops = .ok (.ok y)
  | .createToken => ops.length = 2 ∧ Passed (accountOf ops .feePayment) ∧ Passed (tokenOf ops .feePayment) ∧
      Passed (statusPending ops) ∧ (∃ y, paymentAmountY ops = .ok (.ok y)) ∧
      Passed (absent ops .delegateChange) ∧ Passed (absent ops .mintTokens)
  | .createTokenAccount => ops.length = 1 ∧ Passed (accountOf ops .feePayment) ∧ Passed (tokenOf ops .feePayment) ∧
      Passed (statusPending ops) ∧ ∃ y, paymentAmountY ops = .ok (.ok y)
  | .mintTokens => ops.length = 2 ∧ Passed (accountOf ops .feePayment) ∧ Passed (tokenOf ops .feePayment) ∧
      Passed (statusPending ops) ∧ (∃ y, paymentAmountY ops = .ok (.ok y)) ∧ Passed (accountOf ops .mintTokens) ∧
      Passed (mintAmount ops) ∧ Passed (fieldOf ops .mintTokens "token_owner_pk") ∧ ∃ tok, mintToken ops = .ok (.ok tok)

theorem nonempty_of_length {n : Nat} (h : ops.length = n + 1) : ∃ op, op ∈ ops :=
  List.exists_mem_of_length_pos (by omega)

theorem statuses_differ (hne : ∃ op, op ∈ ops) (hempty : Passed (statusEmpty ops)) (hpending : Passed (statusPending ops)) :
    False := by
  obtain ⟨op, hop⟩ := hne
  obtain ⟨_, hempty⟩ := hempty
  obtain ⟨_, hpending⟩ := hpending
  have hstatus := statusPending_eq_ok.1 hpending op hop
  rcases statusEmpty_eq_ok.1 hempty op hop with h | h
  · rw [hstatus] at h
    cases h
  · rw [hstatus] at h
    exact absurd (Option.some.inj h) (by decide)

/-- Every parser asks for a fee. -/
theorem passes_fee {k : Kind} (h : Passes ops k) : ∃ op, Found ops .feePayment op := by
  have htoken : Passed (tokenOf ops .feePayment) := by
    cases k with
    | payment => exact h.2.2.2.1
    | delegation => exact h.2.2.1
    | createToken => exact h.2.2.1
    | createTokenAccount => exact h.2.2.1
    | mintTokens => exact h.2.2.1
  obtain ⟨tok, htoken⟩ := htoken
  obtain ⟨op, hop, -⟩ := tokenOf_eq_ok.1 htoken
  exact ⟨op, hop⟩

/-- The checks of one parser at most pass. -/
theorem passes_unique {k l : Kind} (hk : Passes ops k) (hl : Passes ops l) : k = l := by
  have hmint : Passed (absent ops .mintTokens) → Passed (accountOf ops .mintTokens) → False := by
    intro habsent haccount
    obtain ⟨_, habsent⟩ := habsent
    obtain ⟨a, haccount⟩ := haccount
    obtain ⟨op, hop, -⟩ := accountOf_eq_ok.1 haccount
    exact absent_eq_ok.1 habsent op hop
  have hlengths : ∀ {m n : Nat}, ops.length = m → ops.length = n → m = n := fun h h' => h.symm.trans h'
  cases k with
  | payment =>
    cases l with
    | payment => rfl
    | delegation => exact absurd (hlengths hk.1 hl.1) (by decide)
    | createToken => exact absurd (hlengths hk.1 hl.1) (by decide)
    | createTokenAccount => exact absurd (hlengths hk.1 hl.1) (by decide)
    | mintTokens => exact absurd (hlengths hk.1 hl.1) (by decide)
  | delegation =>
    cases l with
    | payment => exact absurd (hlengths hk.1 hl.1) (by decide)
    | delegation => rfl
    | createToken => exact (statuses_differ (nonempty_of_length hk.1) hk.2.2.2.2.1 hl.2.2.2.1).elim
    | createTokenAccount => exact absurd (hlengths hk.1 hl.1) (by decide)
    | mintTokens => exact (statuses_differ (nonempty_of_length hk.1) hk.2.2.2.2.1 hl.2.2.2.1).elim
  | createToken =>
    cases l with
    | payment => exact absurd (hlengths hk.1 hl.1) (by decide)
    | delegation => exact (statuses_differ (nonempty_of_length hk.1) hl.2.2.2.2.1 hk.2.2.2.1).elim
    | createToken => rfl
    | createTokenAccount => exact absurd (hlengths hk.1 hl.1) (by decide)
    | mintTokens => exact (hmint hk.2.2.2.2.2.2 hl.2.2.2.2.2.1).elim
  | createTokenAccount =>
    cases l with
    | payment => exact absurd (hlengths hk.1 hl.1) (by decide)
    | delegation => exact absurd (hlengths hk.1 hl.1) (by decide)
    | createToken => exact absurd (hlengths hk.1 hl.1) (by decide)
    | createTokenAccount => rfl
    | mintTokens => exact absurd (hlengths hk.1 hl.1) (by decide)
  | mintTokens =>
    cases l with
    | payment => exact absurd (hlengths hk.1 hl.1) (by decide)
    | delegation => exact (statuses_differ (nonempty_of_length hk.1) hl.2.2.2.2.1 hk.2.2.2.1).elim
    | createToken => exact (hmint hl.2.2.2.2.2.2 hk.2.2.2.2.2.1).elim
    | createTokenAccount => exact absurd (hlengths hk.1 hl.1) (by decide)
    | mintTokens => rfl

variable (memo : Option String) (validUntil : Option Uint32)

variable (ops) in
/-- The checks of a parser pass, and what it makes of them may still raise. -/
inductive Converts : Kind → Exn Partial → Prop
  | payment {a b : AccountIdentifier} {tok feeTok : Uint64} {x y : Amount} : ops.length = 3 →
      paymentAccountA ops = .ok a → tokenOf ops .paymentSourceDec = .ok tok → tokenOf ops .feePayment = .ok feeTok →
      accountOf ops .paymentReceiverInc = .ok b → Passed (statusEmpty ops) → paymentAmountX ops = .ok (.ok x) →
      paymentAmountY ops = .ok (.ok y) → Converts .payment (paymentCommand memo validUntil () a tok feeTok b () x y)
  | delegation {a : AccountIdentifier} {feeTok : Uint64} {b : String} {y : Amount} : ops.length = 2 →
      accountOf ops .feePayment = .ok a → tokenOf ops .feePayment = .ok feeTok →
      fieldOf ops .delegateChange "delegate_change_target" = .ok b → Passed (statusEmpty ops) →
      paymentAmountY ops = .ok (.ok y) →
      Converts .delegation (plainCommand memo validUntil .delegation a.address b feeTok y)
  | createToken {a : AccountIdentifier} {feeTok : Uint64} {y : Amount} : ops.length = 2 →
      accountOf ops .feePayment = .ok a → tokenOf ops .feePayment = .ok feeTok → Passed (statusPending ops) →
      paymentAmountY ops = .ok (.ok y) → Passed (absent ops .delegateChange) → Passed (absent ops .mintTokens) →
      Converts .createToken (plainCommand memo validUntil .createToken a.address a.address feeTok y)
  | createTokenAccount {a : AccountIdentifier} {feeTok : Uint64} {y : Amount} : ops.length = 1 →
      accountOf ops .feePayment = .ok a → tokenOf ops .feePayment = .ok feeTok → Passed (statusPending ops) →
      paymentAmountY ops = .ok (.ok y) →
      Converts .createTokenAccount (plainCommand memo validUntil .createTokenAccount a.address a.address feeTok y)
  | mintTokens {a b : AccountIdentifier} {feeTok tok : Uint64} {x y : Amount} {c : String} : ops.length = 2 →
      accountOf ops .feePayment = .ok a → tokenOf ops .feePayment = .ok feeTok → Passed (statusPending ops) →
      paymentAmountY ops = .ok (.ok y) → accountOf ops .mintTokens = .ok b → mintAmount ops = .ok x →
      fieldOf ops .mintTokens "token_owner_pk" = .ok c → mintToken ops = .ok (.ok tok) →
      Converts .mintTokens (mintCommand memo validUntil () a feeTok () y b x c tok)

variable (ops) in
def parser : Kind → Exn (Validation Partial)
  | .payment => payment memo validUntil ops
  | .delegation => delegation memo validUntil ops
  | .createToken => createToken memo validUntil ops
  | .createTokenAccount => createTokenAccount memo validUntil ops
  | .mintTokens => mintTokens memo validUntil ops

variable (ops) in
/-- The checks of a parser that may raise return. -/
def ChecksReturn : Kind → Prop
  | .payment => (∃ v, paymentAmountY ops = .ok v) ∧ ∃ v, paymentAmountX ops = .ok v
  | .mintTokens => (∃ v, paymentAmountY ops = .ok v) ∧ ∃ v, mintToken ops = .ok v
  | _ => ∃ v, paymentAmountY ops = .ok v

variable {memo validUntil}

theorem passes_of_converts {k : Kind} {e : Exn Partial} (h : Converts ops memo validUntil k e) : Passes ops k := by
  cases h with
  | payment hlen ha htok hfeeTok hb hstatus hx hy =>
    exact ⟨hlen, ⟨_, ha⟩, ⟨_, htok⟩, ⟨_, hfeeTok⟩, ⟨_, hb⟩, hstatus, ⟨_, hx⟩, _, hy⟩
  | delegation hlen ha hfeeTok hb hstatus hy => exact ⟨hlen, ⟨_, ha⟩, ⟨_, hfeeTok⟩, ⟨_, hb⟩, hstatus, _, hy⟩
  | createToken hlen ha hfeeTok hstatus hy hdelegate hmint =>
    exact ⟨hlen, ⟨_, ha⟩, ⟨_, hfeeTok⟩, hstatus, ⟨_, hy⟩, hdelegate, hmint⟩
  | createTokenAccount hlen ha hfeeTok hstatus hy => exact ⟨hlen, ⟨_, ha⟩, ⟨_, hfeeTok⟩, hstatus, _, hy⟩
  | mintTokens hlen ha hfeeTok hstatus hy hb hx hc htok =>
    exact ⟨hlen, ⟨_, ha⟩, ⟨_, hfeeTok⟩, hstatus, ⟨_, hy⟩, ⟨_, hb⟩, ⟨_, hx⟩, ⟨_, hc⟩, _, htok⟩

/-- A parser is a validation whose function may raise. -/
theorem parser_eq {k : Kind} (h : ChecksReturn ops k) : ∃ v, parser ops memo validUntil k = run v ∧
    ∀ e, v = .ok e ↔ Converts ops memo validUntil k e := by
  cases k with
  | payment =>
    obtain ⟨⟨vy, hvy⟩, vx, hvx⟩ := h
    refine ⟨_, by rw [parser, payment, hvy, Exn.andThen_ok, hvx, Exn.andThen_ok], fun e => ?_⟩
    simp only [apply_eq_ok, map_eq_ok, lengthIs_eq_ok]
    constructor
    · intro h
      obtain ⟨_, ⟨_, ⟨_, ⟨_, ⟨_, ⟨_, ⟨_, ⟨_, hlen, rfl⟩, a, ha, rfl⟩, tok, htok, rfl⟩, feeTok, hfeeTok, rfl⟩, b, hb, rfl⟩,
        u, hu, rfl⟩, x, rfl, rfl⟩, y, rfl, rfl⟩ := h
      exact .payment hlen ha htok hfeeTok hb ⟨u, hu⟩ hvx hvy
    · intro h
      cases h with
      | payment hlen ha htok hfeeTok hb hstatus hx hy =>
        obtain ⟨u, hu⟩ := hstatus
        exact ⟨_, ⟨_, ⟨_, ⟨_, ⟨_, ⟨_, ⟨_, ⟨(), hlen, rfl⟩, _, ha, rfl⟩, _, htok, rfl⟩, _, hfeeTok, rfl⟩, _, hb, rfl⟩,
          u, hu, rfl⟩, _, Except.ok.inj (hvx.symm.trans hx), rfl⟩, _, Except.ok.inj (hvy.symm.trans hy), rfl⟩
  | delegation =>
    obtain ⟨vy, hvy⟩ := h
    refine ⟨_, by rw [parser, delegation, hvy, Exn.andThen_ok], fun e => ?_⟩
    simp only [apply_eq_ok, map_eq_ok, lengthIs_eq_ok]
    constructor
    · intro h
      obtain ⟨_, ⟨_, ⟨_, ⟨_, ⟨_, ⟨_, hlen, rfl⟩, a, ha, rfl⟩, feeTok, hfeeTok, rfl⟩, b, hb, rfl⟩, u, hu, rfl⟩, y, rfl, rfl⟩ := h
      exact .delegation hlen ha hfeeTok hb ⟨u, hu⟩ hvy
    · intro h
      cases h with
      | delegation hlen ha hfeeTok hb hstatus hy =>
        obtain ⟨u, hu⟩ := hstatus
        exact ⟨_, ⟨_, ⟨_, ⟨_, ⟨_, ⟨(), hlen, rfl⟩, _, ha, rfl⟩, _, hfeeTok, rfl⟩, _, hb, rfl⟩, u, hu, rfl⟩, _,
          Except.ok.inj (hvy.symm.trans hy), rfl⟩
  | createToken =>
    obtain ⟨vy, hvy⟩ := h
    refine ⟨_, by rw [parser, createToken, hvy, Exn.andThen_ok], fun e => ?_⟩
    simp only [apply_eq_ok, map_eq_ok, lengthIs_eq_ok]
    constructor
    · intro h
      obtain ⟨_, ⟨_, ⟨_, ⟨_, ⟨_, ⟨_, ⟨_, hlen, rfl⟩, a, ha, rfl⟩, feeTok, hfeeTok, rfl⟩, u, hu, rfl⟩, y, rfl, rfl⟩,
        v, hv, rfl⟩, w, hw, rfl⟩ := h
      exact .createToken hlen ha hfeeTok ⟨u, hu⟩ hvy ⟨v, hv⟩ ⟨w, hw⟩
    · intro h
      cases h with
      | createToken hlen ha hfeeTok hstatus hy hdelegate hmint =>
        obtain ⟨u, hu⟩ := hstatus
        obtain ⟨v, hv⟩ := hdelegate
        obtain ⟨w, hw⟩ := hmint
        exact ⟨_, ⟨_, ⟨_, ⟨_, ⟨_, ⟨_, ⟨(), hlen, rfl⟩, _, ha, rfl⟩, _, hfeeTok, rfl⟩, u, hu, rfl⟩, _,
          Except.ok.inj (hvy.symm.trans hy), rfl⟩, v, hv, rfl⟩, w, hw, rfl⟩
  | createTokenAccount =>
    obtain ⟨vy, hvy⟩ := h
    refine ⟨_, by rw [parser, createTokenAccount, hvy, Exn.andThen_ok], fun e => ?_⟩
    simp only [apply_eq_ok, map_eq_ok, lengthIs_eq_ok]
    constructor
    · intro h
      obtain ⟨_, ⟨_, ⟨_, ⟨_, ⟨_, hlen, rfl⟩, a, ha, rfl⟩, feeTok, hfeeTok, rfl⟩, u, hu, rfl⟩, y, rfl, rfl⟩ := h
      exact .createTokenAccount hlen ha hfeeTok ⟨u, hu⟩ hvy
    · intro h
      cases h with
      | createTokenAccount hlen ha hfeeTok hstatus hy =>
        obtain ⟨u, hu⟩ := hstatus
        exact ⟨_, ⟨_, ⟨_, ⟨_, ⟨(), hlen, rfl⟩, _, ha, rfl⟩, _, hfeeTok, rfl⟩, u, hu, rfl⟩, _,
          Except.ok.inj (hvy.symm.trans hy), rfl⟩
  | mintTokens =>
    obtain ⟨⟨vy, hvy⟩, vt, hvt⟩ := h
    refine ⟨_, by rw [parser, mintTokens, hvt, Exn.andThen_ok, hvy, Exn.andThen_ok], fun e => ?_⟩
    simp only [apply_eq_ok, map_eq_ok, lengthIs_eq_ok]
    constructor
    · intro h
      obtain ⟨_, ⟨_, ⟨_, ⟨_, ⟨_, ⟨_, ⟨_, ⟨_, ⟨_, hlen, rfl⟩, a, ha, rfl⟩, feeTok, hfeeTok, rfl⟩, u, hu, rfl⟩, y, rfl, rfl⟩,
        b, hb, rfl⟩, x, hx, rfl⟩, c, hc, rfl⟩, tok, rfl, rfl⟩ := h
      exact .mintTokens hlen ha hfeeTok ⟨u, hu⟩ hvy hb hx hc hvt
    · intro h
      cases h with
      | mintTokens hlen ha hfeeTok hstatus hy hb hx hc htok =>
        obtain ⟨u, hu⟩ := hstatus
        exact ⟨_, ⟨_, ⟨_, ⟨_, ⟨_, ⟨_, ⟨_, ⟨_, ⟨(), hlen, rfl⟩, _, ha, rfl⟩, _, hfeeTok, rfl⟩, u, hu, rfl⟩, _,
          Except.ok.inj (hvy.symm.trans hy), rfl⟩, _, hb, rfl⟩, _, hx, rfl⟩, _, hc, rfl⟩, _,
          Except.ok.inj (hvt.symm.trans htok), rfl⟩

theorem converts_checksReturn {k : Kind} {e : Exn Partial} (h : Converts ops memo validUntil k e) : ChecksReturn ops k := by
  cases h with
  | payment _ _ _ _ _ _ hx hy => exact ⟨⟨_, hy⟩, _, hx⟩
  | delegation _ _ _ _ _ hy => exact ⟨_, hy⟩
  | createToken _ _ _ _ hy => exact ⟨_, hy⟩
  | createTokenAccount _ _ _ _ hy => exact ⟨_, hy⟩
  | mintTokens _ _ _ _ hy _ _ _ htok => exact ⟨⟨_, hy⟩, _, htok⟩

theorem parser_checksReturn {k : Kind} {v : Validation Partial} (h : parser ops memo validUntil k = .ok v) :
    ChecksReturn ops k := by
  cases k with
  | payment =>
    obtain ⟨vy, hvy, h⟩ := Exn.andThen_eq_ok.1 h
    obtain ⟨vx, hvx, -⟩ := Exn.andThen_eq_ok.1 h
    exact ⟨⟨vy, hvy⟩, vx, hvx⟩
  | delegation =>
    obtain ⟨vy, hvy, -⟩ := Exn.andThen_eq_ok.1 h
    exact ⟨vy, hvy⟩
  | createToken =>
    obtain ⟨vy, hvy, -⟩ := Exn.andThen_eq_ok.1 h
    exact ⟨vy, hvy⟩
  | createTokenAccount =>
    obtain ⟨vy, hvy, -⟩ := Exn.andThen_eq_ok.1 h
    exact ⟨vy, hvy⟩
  | mintTokens =>
    obtain ⟨vt, hvt, h⟩ := Exn.andThen_eq_ok.1 h
    obtain ⟨vy, hvy, -⟩ := Exn.andThen_eq_ok.1 h
    exact ⟨⟨vy, hvy⟩, vt, hvt⟩

variable (memo validUntil) in
theorem parser_returns {k : Kind} : (∃ v, parser ops memo validUntil k = .ok v) ↔
    ChecksReturn ops k ∧ ∀ e, Converts ops memo validUntil k e → ∃ p, e = .ok p := by
  constructor
  · intro h
    obtain ⟨r, hr⟩ := h
    have hchecks := parser_checksReturn hr
    obtain ⟨v, hv, hconverts⟩ := parser_eq hchecks
    rw [hv] at hr
    exact ⟨hchecks, fun e he => run_returns.1 ⟨r, hr⟩ e ((hconverts e).2 he)⟩
  · intro h
    obtain ⟨v, hv, hconverts⟩ := parser_eq h.1
    rw [hv]
    exact run_returns.2 fun e he => h.2 e ((hconverts e).1 he)

theorem parser_eq_ok {k : Kind} {p : Partial} : parser ops memo validUntil k = .ok (.ok p) ↔
    Converts ops memo validUntil k (.ok p) := by
  constructor
  · intro h
    obtain ⟨v, hv, hconverts⟩ := parser_eq (parser_checksReturn h)
    rw [hv, run_eq_ok] at h
    exact (hconverts _).1 h
  · intro h
    obtain ⟨v, hv, hconverts⟩ := parser_eq (converts_checksReturn h)
    rw [hv, run_eq_ok]
    exact (hconverts _).2 h

theorem converts_unique {k : Kind} {e e' : Exn Partial} (h : Converts ops memo validUntil k e)
    (h' : Converts ops memo validUntil k e') : e = e' := by
  have hchain : ∃ v, parser ops memo validUntil k = run v ∧ ∀ e, v = .ok e ↔ Converts ops memo validUntil k e :=
    parser_eq (converts_checksReturn h)
  obtain ⟨v, -, hconverts⟩ := hchain
  exact Except.ok.inj (((hconverts e).2 h).symm.trans ((hconverts e').2 h'))

/-! ## All parsers -/

def kinds : List Kind := [.payment, .delegation, .createToken, .createTokenAccount, .mintTokens]

theorem mem_kinds (k : Kind) : k ∈ kinds := by
  cases k <;> decide

theorem partials_eq_ok {results : List (Validation Partial)} : partials memo validUntil ops = .ok results ↔
    ∃ g, (∀ k, parser ops memo validUntil k = .ok (g k)) ∧ results = kinds.map g := by
  unfold partials
  simp only [Exn.andThen_eq_ok, Except.ok.injEq]
  constructor
  · intro h
    obtain ⟨m, hm, ta, hta, t, ht, d, hd, pa, hpa, rfl⟩ := h
    refine ⟨fun k => Kind.rec pa d t ta m k, fun k => ?_, rfl⟩
    cases k with
    | payment => exact hpa
    | delegation => exact hd
    | createToken => exact ht
    | createTokenAccount => exact hta
    | mintTokens => exact hm
  · intro h
    obtain ⟨g, hg, rfl⟩ := h
    exact ⟨_, hg .mintTokens, _, hg .createTokenAccount, _, hg .createToken, _, hg .delegation, _, hg .payment, rfl⟩

theorem filterMap_unique {α β : Type} {f : α → Option β} {a : α} {b : β} (hb : f a = some b) : ∀ {l : List α},
    l.Nodup → a ∈ l → (∀ c ∈ l, c ≠ a → f c = none) → l.filterMap f = [b]
  | [], _, hmem, _ => by cases hmem
  | c :: l, hnodup, hmem, hnone => by
    rw [List.nodup_cons] at hnodup
    by_cases hc : c = a
    · subst hc
      rw [List.filterMap_cons_some hb, List.filterMap_eq_nil_iff.2]
      intro d hd
      refine hnone d (List.mem_cons_of_mem _ hd) ?_
      intro heq
      exact hnodup.1 (heq ▸ hd)
    · rw [List.filterMap_cons_none (hnone c List.mem_cons_self hc)]
      exact filterMap_unique hb hnodup.2 ((List.mem_cons.1 hmem).resolve_left (Ne.symm hc)) fun d hd =>
        hnone d (List.mem_cons_of_mem _ hd)

/-- One parser at most accepts. -/
theorem accepts_unique {k l : Kind} {p q : Partial} (hk : parser ops memo validUntil k = .ok (.ok p))
    (hl : parser ops memo validUntil l = .ok (.ok q)) : k = l :=
  passes_unique (passes_of_converts (parser_eq_ok.1 hk)) (passes_of_converts (parser_eq_ok.1 hl))

theorem oks_eq {g : Kind → Validation Partial} (hg : ∀ k, parser ops memo validUntil k = .ok (g k)) {k : Kind}
    {p : Partial} (hk : g k = .ok p) : oks (kinds.map g) = [p] := by
  rw [oks, List.filterMap_map]
  refine filterMap_unique (a := k) ?_ (by decide) (mem_kinds k) fun l _ hne => ?_
  · rw [Function.comp_apply, hk]
    rfl
  · cases hl : g l with
    | ok q => exact absurd (accepts_unique ((hg l).trans (congrArg _ hl)) ((hg k).trans (congrArg _ hk))) hne
    | error es =>
      rw [Function.comp_apply, hl]
      rfl

theorem oks_nil {g : Kind → Validation Partial} (hnone : ∀ k p, g k ≠ .ok p) : oks (kinds.map g) = [] := by
  rw [oks, List.filterMap_map, List.filterMap_eq_nil_iff]
  intro k _
  cases hk : g k with
  | ok p => exact absurd hk (hnone k p)
  | error es =>
    rw [Function.comp_apply, hk]
    rfl

theorem ofOperations_returns : (∃ r, ofOperations memo validUntil ops = .ok r) ↔
    ∀ k, ∃ v, parser ops memo validUntil k = .ok v := by
  constructor
  · intro h k
    obtain ⟨r, hr⟩ := h
    obtain ⟨results, hresults, -⟩ := Exn.andThen_eq_ok.1 hr
    obtain ⟨g, hg, -⟩ := partials_eq_ok.1 hresults
    exact ⟨g k, hg k⟩
  · intro h
    choose g hg using h
    unfold ofOperations
    rw [partials_eq_ok.2 ⟨g, hg, rfl⟩, Exn.andThen_ok]
    by_cases hk : ∃ k p, g k = .ok p
    · obtain ⟨k, p, hk⟩ := hk
      rw [oks_eq hg hk]
      exact ⟨_, rfl⟩
    · rw [oks_nil fun k p hp => hk ⟨k, p, hp⟩]
      exact ⟨_, rfl⟩

theorem ofOperations_eq_ok {p : Partial} : ofOperations memo validUntil ops = .ok (.ok p) ↔
    (∀ k, ∃ v, parser ops memo validUntil k = .ok v) ∧ ∃ k, parser ops memo validUntil k = .ok (.ok p) := by
  constructor
  · intro h
    refine ⟨ofOperations_returns.1 ⟨_, h⟩, ?_⟩
    obtain ⟨results, hresults, h⟩ := Exn.andThen_eq_ok.1 h
    obtain ⟨g, hg, rfl⟩ := partials_eq_ok.1 hresults
    by_cases hk : ∃ k q, g k = .ok q
    · obtain ⟨k, q, hk⟩ := hk
      rw [oks_eq hg hk] at h
      cases h
      exact ⟨k, (hg k).trans (congrArg _ hk)⟩
    · rw [oks_nil fun k q hq => hk ⟨k, q, hq⟩] at h
      cases h
  · intro h
    obtain ⟨hall, k, hk⟩ := h
    choose g hg using hall
    unfold ofOperations
    rw [partials_eq_ok.2 ⟨g, hg, rfl⟩, Exn.andThen_ok, oks_eq hg (Except.ok.inj ((hg k).symm.trans hk))]

/-- What one parser makes of operations is the result, if no check raises. -/
theorem ofOperations_of_converts {k : Kind} {p : Partial} (hk : Converts ops memo validUntil k (.ok p))
    (hchecks : ∀ l, ChecksReturn ops l) : ofOperations memo validUntil ops = .ok (.ok p) := by
  refine ofOperations_eq_ok.2 ⟨fun l => ?_, k, parser_eq_ok.2 hk⟩
  refine (parser_returns memo validUntil).2 ⟨hchecks l, fun e he => ?_⟩
  obtain rfl := passes_unique (passes_of_converts hk) (passes_of_converts he)
  exact ⟨p, converts_unique he hk⟩

end Ops

end Mina.Rosetta
