/-
The two batchers of the network pools (`Batcher.Transaction_pool` and
`Batcher.Snark_pool`), and what the verifier does for them
(`verifier/prod.ml`).

The verifier checks every command on its own and all proofs of a call at
once. A diff with an invalid command is invalid, but its proofs were in the
call: one of them can be what makes the call fail for another diff, and if
that is the only one left it is condemned (`run_condemns`). Proof envelopes
have no such partial answers, and get the right one always.
-/
import Mina.NetworkPool.BatcherRuns
import Mina.Base.Transaction

namespace Mina.Batcher

/-- `Envelope.Incoming.t`. -/
structure Envelope (σ α : Type) where
  data : α
  sender : σ

def compareEnvelope {σ α : Type} (compare : σ → σ → Ordering) (e₁ e₂ : Envelope σ α) : Ordering :=
  compare e₁.sender e₂.sender

/-! ## The transaction pool -/

namespace TransactionPool

variable {κ ν φ σ : Type}

/-- What the check of one command answers (`Common.check`). -/
inductive Check (ν φ : Type) where
  | valid (c : ν)
  | invalid
  | validAssuming (c : ν) (proofs : List φ)

/-- What the verifier runs on: the check of one command, and that of all
proofs of a call. -/
structure Verifier (κ ν φ : Type) where
  check : κ → Check ν φ
  verifyProofs : List φ → Bool

/-- What the verifier answers for a command. -/
inductive CommandVerdict (ν φ : Type) where
  | valid (c : ν)
  | invalid
  | validAssuming (proofs : List φ)

def toVerify : Check ν φ → List φ
  | .valid _ => []
  | .invalid => []
  | .validAssuming _ xs => xs

def commandVerdict (allVerified : Bool) : Check ν φ → CommandVerdict ν φ
  | .valid c => .valid c
  | .invalid => .invalid
  | .validAssuming c xs => if allVerified then .valid c else .validAssuming xs

def verifyCommands (W : Verifier κ ν φ) (cs : List κ) : List (CommandVerdict ν φ) :=
  let cs := cs.map W.check
  let allVerified := W.verifyProofs (cs.flatMap toVerify)
  cs.map (commandVerdict allVerified)

abbrev Diff (σ κ : Type) := Envelope σ (List κ)

/-- `partial_item`: a command that is valid, or valid if its proofs are. -/
inductive PartialItem (κ ν φ : Type) where
  | valid (c : ν)
  | validAssuming (cmd : κ) (proofs : List φ)

/-- What is known of a command during a call. -/
inductive ItemStatus (κ ν φ : Type) where
  | unknown
  | valid (c : ν)
  | validAssuming (cmd : κ) (proofs : List φ)

/-- What is known of a diff during a call. -/
inductive Progress (κ ν φ : Type) where
  | invalid
  | inProgress (a : List (ItemStatus κ ν φ))

abbrev DiffInput (σ κ ν φ : Type) := Input (Diff σ κ) (List (PartialItem κ ν φ))

def itemStatus : PartialItem κ ν φ → ItemStatus κ ν φ
  | .valid c => .valid c
  | .validAssuming cmd xs => .validAssuming cmd xs

def initResult (ds : List (DiffInput σ κ ν φ)) : List (Progress κ ν φ) :=
  ds.map fun
    | .init d => .inProgress (d.data.map fun _ => .unknown)
    | .partiallyValidated d => .inProgress (d.map itemStatus)

/-- The commands that have not yet been fully validated, with their place. -/
def unknowns (ds : List (DiffInput σ κ ν φ)) : List ((Nat × Nat) × κ) :=
  ds.zipIdx.flatMap fun (x, i) =>
    match x with
    | .init diff => diff.data.zipIdx.map fun (c, j) => ((i, j), c)
    | .partiallyValidated items => items.zipIdx.filterMap fun
      | (.valid _, _) => none
      | (.validAssuming v _, j) => some ((i, j), v)

/-- Take the verifier's answer for one command into what is known of its diff. -/
def setProgress (j : Nat) (v : κ) : CommandVerdict ν φ → Progress κ ν φ → Progress κ ν φ
  -- the whole diff that the command comes from is invalid
  | .invalid, _ => .invalid
  | .validAssuming _, .invalid => .invalid
  | .validAssuming xs, .inProgress a => .inProgress (a.set j (.validAssuming v xs))
  | .valid _, .invalid => .invalid
  | .valid c, .inProgress a => .inProgress (a.set j (.valid c))

def allValid : List (ItemStatus κ ν φ) → Option (List ν)
  | [] => some []
  | .valid c :: a => (allValid a).map (c :: ·)
  | _ :: _ => none

def partialItem : ItemStatus κ ν φ → Exn (PartialItem κ ν φ)
  | .unknown => .error "Assert_failure"
  | .valid c => .ok (.valid c)
  | .validAssuming v xs => .ok (.validAssuming v xs)

def diffVerdict : Progress κ ν φ → Exn (Verdict (List ν) (List (PartialItem κ ν φ)))
  | .invalid => .ok .invalid
  | .inProgress a =>
    match allValid a with
    | some res => .ok (.valid res)
    | none => (Exn.mapList partialItem a).andThen fun items => .ok (.potentiallyInvalid items)

/-- The verifier that `create` gives to its batcher. -/
def verifier (W : Verifier κ ν φ) (ds : List (DiffInput σ κ ν φ)) :
    Exn (List (Verdict (List ν) (List (PartialItem κ ν φ)))) :=
  let unknowns := unknowns ds
  let res := verifyCommands W (unknowns.map (·.2))
  if unknowns.length ≠ res.length then .error "List.iter2_exn: lists of different lengths"
  else
    let result := (unknowns.zip res).foldl
      (fun result (u, r) => result.modify u.1.1 (setProgress u.1.2 u.2 r)) (initResult ds)
    Exn.mapList diffVerdict result

def create (compare : σ → σ → Ordering) (W : Verifier κ ν φ) :
    Config (Diff σ κ) (List (PartialItem κ ν φ)) (List ν) where
  howToAdd := .enqueueBack
  compareInit := some (compareEnvelope compare)
  weight := fun _ => 1
  maxWeightPerCall := none
  verifier := verifier W

end TransactionPool

/-! ## The snark pool -/

namespace SnarkPool

variable {φ μ σ : Type}

/-- A proof, or two, with the message of who made it and for what fee. -/
abbrev ProofEnvelope (σ φ μ : Type) := Envelope σ (OneOrTwo φ × μ)

def envelope : Input (ProofEnvelope σ φ μ) (ProofEnvelope σ φ μ) → ProofEnvelope σ φ μ
  | .init env => env
  | .partiallyValidated env => env

def proofs (env : ProofEnvelope σ φ μ) : List (φ × μ) := (env.data.1.map fun p => (p, env.data.2)).toList

/-- The verifier that `create` gives to its batcher. -/
def verifier (verifyTransactionSnarks : List (φ × μ) → Bool)
    (ps0 : List (Input (ProofEnvelope σ φ μ) (ProofEnvelope σ φ μ))) :
    Exn (List (Verdict Unit (ProofEnvelope σ φ μ))) :=
  let ps := ps0.flatMap fun p => proofs (envelope p)
  if verifyTransactionSnarks ps then .ok (ps0.map fun _ => .valid ())
  else .ok (ps0.map fun p => .potentiallyInvalid (envelope p))

def create (compare : σ → σ → Ordering) (maxWeightPerCall : Int) (verifyTransactionSnarks : List (φ × μ) → Bool) :
    Config (ProofEnvelope σ φ μ) (ProofEnvelope σ φ μ) Unit where
  howToAdd := .enqueueBack
  compareInit := some (compareEnvelope compare)
  weight := fun _ => 1
  maxWeightPerCall := some maxWeightPerCall
  verifier := verifier verifyTransactionSnarks

end SnarkPool

end Mina.Batcher
