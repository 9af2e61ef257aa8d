/-
`apply_body` of `mina_base/transaction_logic.ml`: the update that one party
of a snapp command makes to its account, and which of its changes the
authorization permits. The six updates share one helper; the permissions
themselves are updated under the requirement for the delegate, so the
requirement for setting them is never asked for (`applyBody_respects_iff`).
-/
import Mina.Account.Timing

namespace Mina

/-- `Transaction_status.Failure.t`. -/
inductive Failure where
  | predicate
  | sourceNotPresent
  | receiverNotPresent
  | amountInsufficientToCreateAccount
  | cannotPayCreationFeeInToken
  | sourceInsufficientBalance
  | sourceMinimumBalanceViolation
  | receiverAlreadyExists
  | notTokenOwner
  | mismatchedTokenPermissions
  | overflow
  | signedCommandOnSnappAccount
  | snappAccountNotPresent
  | updateNotPermitted
  | incorrectNonce
deriving DecidableEq

/-! ## Party bodies -/

inductive SetOrKeep (α : Type) where
  | set (x : α)
  | keep
deriving DecidableEq

namespace SetOrKeep

variable {α : Type}

def setOrKeep : SetOrKeep α → α → α
  | .keep, x => x
  | .set y, _ => y

def isKeep : SetOrKeep α → Bool
  | .keep => true
  | .set _ => false

theorem setOrKeep_of_isKeep {u : SetOrKeep α} (h : u.isKeep = true) (x : α) : u.setOrKeep x = x := by
  cases u with
  | set y => cases h
  | keep => rfl

end SetOrKeep

/-- `Snapp_command.Party.Update.t`. -/
structure PartyUpdate (F VK : Type) where
  appState : Vector (SetOrKeep F) 8
  delegate : SetOrKeep PublicKey
  verificationKey : SetOrKeep (HashedKey F VK)
  permissions : SetOrKeep Permissions
deriving DecidableEq

/-- `Snapp_command.Party.Body.t`, with the update that the pool does not
read. -/
structure UpdateBody (F VK : Type) where
  pk : PublicKey
  update : PartyUpdate F VK
  delta : SignedAmount
deriving DecidableEq

/-- `Control.t`, without the signatures and proofs. -/
inductive Control where
  | proof
  | signature
  | both
  | noneGiven
deriving DecidableEq

/-- A signature has the tag `Both`. -/
def Control.tag : Control → ControlTag
  | .proof => .proof
  | .signature => .both
  | .both => .both
  | .noneGiven => .noneGiven

/-- The `check_auth` that an existing account is updated with. -/
def Control.checkAuth (authorization : Control) (perm : AuthRequired) : Bool := perm.check authorization.tag

/-! ## `apply_body` -/

def timingErrorToUserCommandStatus : TimingError → Failure
  | .nsf .. => .sourceInsufficientBalance
  | .minBalance .. => .sourceMinimumBalanceViolation

def optFail {α : Type} (failure : Failure) : Option α → Except Failure α
  | some x => .ok x
  | none => .error failure

def addSignedAmount (b : Balance) (a : SignedAmount) : Except Failure Balance :=
  optFail .overflow <|
    match a.sgn with
    | .pos => Currency.add b a.magnitude
    | .neg => Currency.sub b a.magnitude

def Failure.check (e : Failure) (b : Bool) : Except Failure Unit := if b then .ok () else .error e

namespace ApplyBody

variable {F VK : Type}

/-- The helper of the six updates: without the authorization the update has
to be a keep. -/
def update {α β : Type} (checkAuth : AuthRequired → Bool) (perm : AuthRequired) (u : α) (curr : β)
    (isKeep : α → Bool) (update : α → β → β) : Except Failure β :=
  if checkAuth perm then .ok (update u curr)
  else do
    Failure.check .updateNotPermitted (isKeep u)
    return curr

/-- The balance after the signed amount and, for a new account, the creation
fee. -/
def newBalance (accountCreationFee : Fee) (isNew : Bool) (delta : SignedAmount) (a : Account F VK) :
    Except Failure Balance := do
  let b ← addSignedAmount a.balance delta
  if isNew then optFail .amountInsufficientToCreateAccount (Currency.sub b accountCreationFee)
  else return b

def newTiming (globalSlotSinceGenesis : GlobalSlot) (delta : SignedAmount) (a : Account F VK) :
    Except Failure Timing :=
  match delta.sgn with
  | .pos => .ok a.timing
  | .neg => (validateTiming a delta.magnitude globalSlotSinceGenesis).mapError timingErrorToUserCommandStatus

/-- Only an account of the default token has a delegate to set. -/
def newDelegate (checkAuth : AuthRequired → Bool) (u : SetOrKeep PublicKey) (a : Account F VK) :
    Except Failure (Option PublicKey) :=
  if a.tokenId = TokenId.default then
    update checkAuth a.permissions.setDelegate u a.delegate SetOrKeep.isKeep fun u x =>
      match u with
      | .keep => x
      | .set y => some y
  else .ok a.delegate

variable [Zero F] [DecidableEq F] [DecidableEq VK]

def newSnapp (checkAuth : AuthRequired → Bool) (u : PartyUpdate F VK) (a : Account F VK) :
    Except Failure (Option (SnappAccount F VK)) := do
  let init := a.snapp.getD .default
  let appState ← update checkAuth a.permissions.editState u.appState init.appState
    (fun v => v.all SetOrKeep.isKeep) (Vector.zipWith SetOrKeep.setOrKeep)
  let verificationKey ← update checkAuth a.permissions.setVerificationKey u.verificationKey
    init.verificationKey SetOrKeep.isKeep fun u x =>
      match u with
      | .keep => x
      | .set y => some y
  let t : SnappAccount F VK := ⟨appState, verificationKey⟩
  return if t = .default then none else some t

end ApplyBody

open ApplyBody

def applyBody {F VK : Type} [Zero F] [DecidableEq F] [DecidableEq VK] (accountCreationFee : Fee)
    (globalSlotSinceGenesis : GlobalSlot) (checkAuth : AuthRequired → Bool) (isNew : Bool)
    (body : UpdateBody F VK) (a : Account F VK) : Except Failure (Account F VK) := do
  let balance ← newBalance accountCreationFee isNew body.delta a
  Failure.check .updateNotPermitted (checkAuth (match body.delta.sgn with
    | .pos => a.permissions.receive
    | .neg => a.permissions.send))
  let timing ← newTiming globalSlotSinceGenesis body.delta a
  let delegate ← newDelegate checkAuth body.update.delegate a
  let snapp ← newSnapp checkAuth body.update a
  let permissions ← update checkAuth a.permissions.setDelegate body.update.permissions a.permissions
    SetOrKeep.isKeep SetOrKeep.setOrKeep
  return { a with balance, snapp, delegate, permissions, timing }

/-! ## Permissions -/

section Respects

variable {F VK : Type}

theorem optFail_eq_ok {α : Type} {e : Failure} {x : Option α} {a : α} : optFail e x = .ok a ↔ x = some a := by
  cases x <;> simp [optFail]

theorem Failure.check_eq_ok {e : Failure} {b : Bool} {u : Unit} : Failure.check e b = .ok u ↔ b = true := by
  cases b <;> simp [Failure.check]

/-- The helper applies the update that it authorizes, and keeps the value
otherwise. -/
theorem update_ok {α β : Type} {checkAuth : AuthRequired → Bool} {perm : AuthRequired} {u : α} {curr b : β}
    {isKeep : α → Bool} {f : α → β → β} (h : update checkAuth perm u curr isKeep f = .ok b) :
    (checkAuth perm = true ∧ b = f u curr) ∨ (checkAuth perm = false ∧ isKeep u = true ∧ b = curr) := by
  rw [update] at h
  split at h
  next hauth => exact .inl ⟨hauth, (Except.ok.inj h).symm⟩
  next hauth =>
    obtain ⟨_, hkeep, h⟩ := bind_eq_ok.1 h
    exact .inr ⟨Bool.eq_false_of_not_eq_true hauth, Failure.check_eq_ok.1 hkeep, (Except.ok.inj h).symm⟩

/-- The state of the snapp account, or the default one's. -/
def Account.appState [Zero F] (a : Account F VK) : SnappState F := (a.snapp.getD .default).appState

def Account.verificationKey [Zero F] (a : Account F VK) : Option (HashedKey F VK) :=
  (a.snapp.getD .default).verificationKey

/-- The changes from one account to the other are those that the requirements
of the first permit. -/
structure RespectsPermissions [Zero F] (checkAuth : AuthRequired → Bool) (a a' : Account F VK) : Prop where
  delegate : a'.delegate ≠ a.delegate → checkAuth a.permissions.setDelegate = true
  appState : a'.appState ≠ a.appState → checkAuth a.permissions.editState = true
  verificationKey : a'.verificationKey ≠ a.verificationKey → checkAuth a.permissions.setVerificationKey = true
  permissions : a'.permissions ≠ a.permissions → checkAuth a.permissions.setPermissions = true
  receive : a.balance < a'.balance → checkAuth a.permissions.receive = true
  send : a'.balance < a.balance → checkAuth a.permissions.send = true
  others : a' = { a with
    balance := a'.balance
    snapp := a'.snapp
    delegate := a'.delegate
    permissions := a'.permissions
    timing := a'.timing }

theorem newDelegate_ok {checkAuth : AuthRequired → Bool} {u : SetOrKeep PublicKey} {a : Account F VK}
    {d : Option PublicKey} (h : newDelegate checkAuth u a = .ok d) (hne : d ≠ a.delegate) :
    checkAuth a.permissions.setDelegate = true := by
  rw [newDelegate] at h
  split at h
  next =>
    rcases update_ok h with ⟨hauth, -⟩ | ⟨-, -, hkeep⟩
    · exact hauth
    · exact absurd hkeep hne
  next => exact absurd (Except.ok.inj h).symm hne

theorem newBalance_ok {fee : Fee} {delta : SignedAmount} {a : Account F VK} {b : Balance}
    (h : newBalance fee false delta a = .ok b) :
    (a.balance < b → delta.sgn = .pos) ∧ (b < a.balance → delta.sgn = .neg) := by
  obtain ⟨b', hb, h⟩ := bind_eq_ok.1 h
  cases h
  rw [addSignedAmount, optFail_eq_ok] at hb
  rw [Fin.lt_def, Fin.lt_def]
  cases hs : delta.sgn with
  | pos =>
    rw [hs] at hb
    have := Currency.add_eq_some.1 hb
    exact ⟨fun _ => rfl, fun hlt => by omega⟩
  | neg =>
    rw [hs] at hb
    have := Currency.sub_eq_some.1 hb
    exact ⟨fun hlt => by omega, fun _ => rfl⟩

variable [Zero F] [DecidableEq F] [DecidableEq VK]

theorem newSnapp_ok {checkAuth : AuthRequired → Bool} {u : PartyUpdate F VK} {a : Account F VK}
    {snapp : Option (SnappAccount F VK)} (h : newSnapp checkAuth u a = .ok snapp) :
    ((snapp.getD .default).appState ≠ a.appState → checkAuth a.permissions.editState = true) ∧
      ((snapp.getD .default).verificationKey ≠ a.verificationKey →
        checkAuth a.permissions.setVerificationKey = true) := by
  obtain ⟨appState, hstate, h⟩ := bind_eq_ok.1 h
  obtain ⟨vk, hvk, h⟩ := bind_eq_ok.1 h
  have hsnapp : snapp.getD .default = ⟨appState, vk⟩ := by
    rw [← Except.ok.inj h]
    split
    next heq => exact heq.symm
    next => rfl
  rw [hsnapp]
  constructor
  · intro hne
    rcases update_ok hstate with ⟨hauth, -⟩ | ⟨-, -, hkeep⟩
    · exact hauth
    · exact absurd hkeep hne
  · intro hne
    rcases update_ok hvk with ⟨hauth, -⟩ | ⟨-, -, hkeep⟩
    · exact hauth
    · exact absurd hkeep hne

/-- **An update respects the permissions exactly when it does not set them, or
is authorized to.** Every other change of an existing account is checked
against the requirement for it; the permissions are set under the
requirement for the delegate. -/
theorem applyBody_respects_iff {fee : Fee} {slot : GlobalSlot} {checkAuth : AuthRequired → Bool}
    {body : UpdateBody F VK} {a a' : Account F VK} (h : applyBody fee slot checkAuth false body a = .ok a') :
    RespectsPermissions checkAuth a a' ↔
      body.update.permissions.setOrKeep a.permissions = a.permissions ∨
        checkAuth a.permissions.setPermissions = true := by
  obtain ⟨balance, hbalance, h⟩ := bind_eq_ok.1 h
  obtain ⟨_, hauth, h⟩ := bind_eq_ok.1 h
  obtain ⟨timing, -, h⟩ := bind_eq_ok.1 h
  obtain ⟨delegate, hdelegate, h⟩ := bind_eq_ok.1 h
  obtain ⟨snapp, hsnapp, h⟩ := bind_eq_ok.1 h
  obtain ⟨permissions, hpermissions, h⟩ := bind_eq_ok.1 h
  cases h
  have hset : permissions = body.update.permissions.setOrKeep a.permissions := by
    rcases update_ok hpermissions with ⟨-, hset⟩ | ⟨-, hkeep, hset⟩
    · exact hset
    · rw [SetOrKeep.setOrKeep_of_isKeep hkeep, hset]
  rw [← hset]
  constructor
  · intro hr
    by_cases hne : permissions = a.permissions
    · exact .inl hne
    · exact .inr (hr.permissions hne)
  · intro hr
    have hauth := Failure.check_eq_ok.1 hauth
    exact {
      delegate := newDelegate_ok hdelegate
      appState := (newSnapp_ok hsnapp).1
      verificationKey := (newSnapp_ok hsnapp).2
      permissions := fun hne => hr.resolve_left hne
      receive := fun hlt => by rwa [(newBalance_ok hbalance).1 hlt] at hauth
      send := fun hlt => by rwa [(newBalance_ok hbalance).2 hlt] at hauth
      others := rfl }

namespace Sample

/-- A signature may set the delegate, and nobody may set the permissions. -/
def lockedPermissions : Permissions := ⟨true, .signature, .signature, .none, .signature, .impossible, .signature⟩

def lockedAccount : Account Nat Nat := { timedAccount with permissions := lockedPermissions }

/-- The same permissions with setting them allowed to a signature. -/
def unlock : UpdateBody Nat Nat where
  pk := ⟨1, false⟩
  update := ⟨.replicate 8 .keep, .keep, .keep, .set { lockedPermissions with setPermissions := .signature }⟩
  delta := .zero

end Sample

theorem applyBody_respects_iff_sample :
    RespectsPermissions (Control.checkAuth .both) Sample.timedAccount
      { Sample.timedAccount with permissions := { Sample.lockedPermissions with setPermissions := .signature } } :=
  (@applyBody_respects_iff Nat Nat _ _ _ 1 30 (Control.checkAuth .both) Sample.unlock _ _ (by decide +kernel)).2 (.inr rfl)

/-- A signature sets permissions that nobody may set. -/
theorem applyBody_sets_locked :
    applyBody 1 30 (Control.checkAuth .signature) false Sample.unlock Sample.lockedAccount =
        .ok { Sample.lockedAccount with
          permissions := { Sample.lockedPermissions with setPermissions := .signature } } ∧
      ¬ RespectsPermissions (Control.checkAuth .signature) Sample.lockedAccount
        { Sample.lockedAccount with
          permissions := { Sample.lockedPermissions with setPermissions := .signature } } :=
  ⟨by decide +kernel, fun h => absurd (h.permissions (by decide)) (by decide)⟩

end Respects

end Mina
