/-
Transactions (`mina_base/transaction.ml`, `coinbase.ml`, `fee_transfer.ml`,
`fee_excess.ml`, and `one_or_two`): commands, fee transfers and coinbases,
with what the staged ledger reads of them. An `Or_error.t` and an exception
are both an `Exn`.
-/
import Mina.Base.UserCommand
import Mina.Base.Exn

namespace Mina

universe u v

/-! ## One or two -/

inductive OneOrTwo (α : Type u) where
  | one (a : α)
  | two (a b : α)
deriving DecidableEq

namespace OneOrTwo

variable {α : Type u} {β : Type v}

def length : OneOrTwo α → Nat
  | .one _ => 1
  | .two _ _ => 2

def toList : OneOrTwo α → List α
  | .one a => [a]
  | .two a b => [a, b]

def map (f : α → β) : OneOrTwo α → OneOrTwo β
  | .one a => .one (f a)
  | .two a b => .two (f a) (f b)

def groupList : List α → List (OneOrTwo α)
  | [] => []
  | [a] => [.one a]
  | a :: b :: rest => .two a b :: groupList rest

end OneOrTwo

/-! ## Amounts -/

namespace Currency

def scale (u64 : Amount) (i : Nat) : Exn (Option Amount) :=
  let i : Amount := Fin.ofNat _ i
  if i = 0 then .error "Division_by_zero"
  else .ok (if u64 ≤ Fin.last _ / i then some (u64 * i) else none)

end Currency

namespace SignedAmount

def negate (t : SignedAmount) : SignedAmount :=
  if t.magnitude = 0 then zero
  else { t with sgn := match t.sgn with | .pos => .neg | .neg => .pos }

def ofUnsigned (magnitude : Amount) : SignedAmount := ⟨magnitude, .pos⟩

/-- `Signed.equal`: a zero has both signs. -/
def equal (t1 t2 : SignedAmount) : Bool := (t1.magnitude = 0 ∧ t2.magnitude = 0) ∨ t1 = t2

end SignedAmount

/-! ## Fee excesses -/

structure FeeExcess where
  feeTokenL : TokenId
  feeExcessL : SignedAmount
  feeTokenR : TokenId
  feeExcessR : SignedAmount
deriving DecidableEq

namespace FeeExcess

def addErr (x y : SignedAmount) : Exn SignedAmount :=
  match SignedAmount.add x y with
  | some z => .ok z
  | none => .error "Error adding fees: overflow."

/-- Eliminate a fee excess, either by combining it with one to the left or the
right, or by checking that it is zero. -/
def eliminateFeeExcess (l m r : TokenId × SignedAmount) :
    Exn ((TokenId × SignedAmount) × (TokenId × SignedAmount)) :=
  if l.1 = m.1 ∨ l.2.magnitude = 0 then
    (addErr l.2 m.2).andThen fun feeExcessL => .ok ((m.1, feeExcessL), r)
  else if r.1 = m.1 ∨ r.2.magnitude = 0 then
    (addErr r.2 m.2).andThen fun feeExcessR => .ok (l, (m.1, feeExcessR))
  else if m.2.magnitude = 0 then .ok (l, r)
  else .error "Error eliminating fee excess: Excess for token was nonzero"

/-- A single nonzero excess is on the left, a zero one has the default token,
and excesses of the same token are combined. -/
def rebalance (t : FeeExcess) : Exn FeeExcess :=
  let feeTokenL := if t.feeExcessL.magnitude = 0 then t.feeTokenR else t.feeTokenL
  let excesses : Exn (SignedAmount × SignedAmount) :=
    if feeTokenL = t.feeTokenR then
      match SignedAmount.add t.feeExcessL t.feeExcessR with
      | some feeExcessL => .ok (feeExcessL, .zero)
      | none => .error "Error adding fees: overflow"
    else .ok (t.feeExcessL, t.feeExcessR)
  excesses.andThen fun e =>
    .ok { feeTokenL := if e.1.magnitude = 0 then TokenId.default else feeTokenL
          feeExcessL := e.1
          feeTokenR := if e.2.magnitude = 0 then TokenId.default else t.feeTokenR
          feeExcessR := e.2 }

/-- The fee excess of two transitions. -/
def combine (t1 t2 : FeeExcess) : Exn FeeExcess :=
  (eliminateFeeExcess (t1.feeTokenL, t1.feeExcessL) (t1.feeTokenR, t1.feeExcessR)
      (t2.feeTokenL, t2.feeExcessL)).andThen fun e =>
    (eliminateFeeExcess e.1 e.2 (t2.feeTokenR, t2.feeExcessR)).andThen fun e =>
      rebalance { feeTokenL := e.1.1, feeExcessL := e.1.2, feeTokenR := e.2.1, feeExcessR := e.2.2 }

def empty : FeeExcess := ⟨TokenId.default, .zero, TokenId.default, .zero⟩

def isZero (t : FeeExcess) : Bool :=
  t.feeExcessL.equal .zero && t.feeExcessR.equal .zero && t.feeTokenL = TokenId.default &&
    t.feeTokenR = TokenId.default

def ofSingle (feeTokenL : TokenId) (feeExcessL : SignedAmount) : Exn FeeExcess :=
  rebalance ⟨feeTokenL, feeExcessL, TokenId.default, .zero⟩

def ofOneOrTwo : OneOrTwo (TokenId × SignedAmount) → Exn FeeExcess
  | .one l => rebalance ⟨l.1, l.2, TokenId.default, .zero⟩
  | .two l r => rebalance ⟨l.1, l.2, r.1, r.2⟩

end FeeExcess

/-! ## Fee transfers -/

namespace FeeTransfer

structure Single where
  receiverPk : PublicKey
  fee : Fee
  feeToken : TokenId
deriving DecidableEq

end FeeTransfer

abbrev FeeTransfer := OneOrTwo FeeTransfer.Single

namespace FeeTransfer

def ofSingles : OneOrTwo Single → Exn FeeTransfer
  | .one s => .ok (.one s)
  | .two one two =>
    if one.feeToken = two.feeToken then .ok (.two one two)
    else .error ("Cannot combine single fee transfers with incompatible tokens: " ++ toString one.feeToken.val ++
      " <> " ++ toString two.feeToken.val)

def feeExcess (ft : FeeTransfer) : Exn FeeExcess :=
  FeeExcess.ofOneOrTwo (ft.map fun s => (s.feeToken, (SignedAmount.ofUnsigned s.fee).negate))

def receiverPks (t : FeeTransfer) : List PublicKey := (t.map Single.receiverPk).toList

def receivers (t : FeeTransfer) : List AccountId := (t.map fun s => ⟨s.receiverPk, s.feeToken⟩).toList

end FeeTransfer

/-! ## Coinbases -/

structure CoinbaseFeeTransfer where
  receiverPk : PublicKey
  fee : Fee
deriving DecidableEq

structure Coinbase where
  receiver : PublicKey
  amount : Amount
  feeTransfer : Option CoinbaseFeeTransfer
deriving DecidableEq

namespace Coinbase

def isValid (t : Coinbase) : Bool :=
  match t.feeTransfer with
  | none => true
  | some ft => ft.fee ≤ t.amount

/-- A fee transfer to the receiver is left out. -/
def create (amount : Amount) (receiver : PublicKey) (feeTransfer : Option CoinbaseFeeTransfer) : Exn Coinbase :=
  let t : Coinbase := { receiver, amount, feeTransfer }
  if t.isValid then
    .ok { t with feeTransfer := feeTransfer.bind fun ft => if receiver = ft.receiverPk then none else some ft }
  else .error "Coinbase.create: invalid coinbase"

def accountsAccessed (t : Coinbase) : List AccountId :=
  ⟨t.receiver, TokenId.default⟩ :: t.feeTransfer.toList.map fun ft => ⟨ft.receiverPk, TokenId.default⟩

def supplyIncrease (t : Coinbase) : Exn Amount :=
  match t.feeTransfer with
  | none => .ok t.amount
  | some ft =>
    match Currency.sub t.amount ft.fee with
    | some _ => .ok t.amount
    | none => .error "Coinbase underflow"

def feeExcess (t : Coinbase) : Exn FeeExcess := t.supplyIncrease.andThen fun _ => .ok .empty

end Coinbase

/-! ## Commands -/

namespace SnappCommand

def accountsAccessed (t : SnappCommand) : List AccountId :=
  ⟨t.bodies.1.pk, t.tokenId⟩ :: (t.bodies.2.toList.map fun x => ⟨x.pk, t.tokenId⟩) ++
    t.feePayment.toList.map fun x => ⟨x.pk, x.tokenId⟩

end SnappCommand

namespace UserCommand

def feeExcess : UserCommand → Exn FeeExcess
  | .signedCommand c => FeeExcess.ofSingle c.feeToken (.ofUnsigned c.fee)
  | .snappCommand c => Exn.andThen c.feeExn fun f => FeeExcess.ofSingle c.feeToken (.ofUnsigned f)

def accountsAccessed (nextAvailableToken : TokenId) : UserCommand → List AccountId
  | .signedCommand c => [c.feePayer, c.source nextAvailableToken, c.receiver nextAvailableToken]
  | .snappCommand c => c.accountsAccessed

end UserCommand

/-! ## Transactions -/

inductive Transaction where
  | command (c : UserCommand)
  | feeTransfer (t : FeeTransfer)
  | coinbase (c : Coinbase)
deriving DecidableEq

/-- `With_status.t`, with the status of a transaction. -/
structure WithStatus (Status α : Type) where
  data : α
  status : Status
deriving DecidableEq

namespace Transaction

def feeExcess : Transaction → Exn FeeExcess
  | .command c => c.feeExcess
  | .feeTransfer t => FeeTransfer.feeExcess t
  | .coinbase t => t.feeExcess

def supplyIncrease : Transaction → Exn Amount
  | .coinbase t => t.supplyIncrease
  | _ => .ok 0

def publicKeys : Transaction → List PublicKey
  | .command (.signedCommand c) => [c.feePayerPk, c.sourcePk, c.receiverPk]
  | .command (.snappCommand c) => c.accountsAccessed.map (·.publicKey)
  | .feeTransfer ft => FeeTransfer.receiverPks ft
  | .coinbase cb => cb.accountsAccessed.map (·.publicKey)

end Transaction

end Mina
