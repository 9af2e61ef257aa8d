/-
The batcher of the network pools (`network_pool/batcher.ml`). Items that come
in while a batch is being verified wait in a queue. A batch the verifier does
not accept as a whole is split in two, and the halves are verified again,
until every item has its answer.

The verifier is another process: a call is sent to it, its answer comes
later, and items may come in between. A computation that calls it is a tree
(`Task`) that fills result variables, calls the verifier and goes on with the
answer. A result variable is known by the id of its item, and the state keeps
what was filled in.
-/
import Mina.Base.Exn

namespace Mina.Batcher

variable {α π ρ : Type}

/-- `elt`. Its result variable is known by its id. -/
structure Elt (α : Type) where
  id : Nat
  data : α
  weight : Int

/-- What the verifier is called on. -/
inductive Input (α π : Type) where
  | init (data : α)
  | partiallyValidated (hint : π)

/-- What the verifier answers for one input. -/
inductive Verdict (ρ π : Type) where
  | valid (result : ρ)
  | invalid
  | potentiallyInvalid (hint : π)

/-- What a result variable is filled with, when the verifier was reached. -/
abbrev Answer (ρ : Type) := Except Unit ρ

/-- A computation that calls the verifier. -/
inductive Task (α π ρ : Type) where
  | done
  | fill (id : Nat) (answer : Answer ρ) (rest : Task α π ρ)
  | call (input : List (Input α π)) (k : List (Verdict ρ π) → Task α π ρ)
  | raise (message : String)

/-- One computation, and then another. -/
def Task.andThen : Task α π ρ → Task α π ρ → Task α π ρ
  | .done, t => t
  | .fill id answer rest, t => .fill id answer (rest.andThen t)
  | .call input k, t => .call input fun res => (k res).andThen t
  | .raise message, _ => .raise message

/-! ## Determining the outcome of a batch -/

/-- Fill in the known results. -/
def fillKnown : List (Elt α × Verdict ρ π) → Task α π ρ → Task α π ρ
  | [], t => t
  | (elt, .valid r) :: l, t => .fill elt.id (.ok r) (fillKnown l t)
  | (elt, .invalid) :: l, t => .fill elt.id (.error ()) (fillKnown l t)
  | (_, .potentiallyInvalid _) :: l, t => fillKnown l t

/-- The elements without a known result, with their new hints. -/
def potentiallyInvalid (l : List (Elt α × Verdict ρ π)) : List (Elt α × π) :=
  l.filterMap fun
    | (elt, .potentiallyInvalid hint) => some (elt, hint)
    | _ => none

theorem length_potentiallyInvalid_le (ps : List (Elt α)) (res : List (Verdict ρ π)) :
    (potentiallyInvalid (ps.zip res)).length ≤ ps.length := by
  refine (List.length_filterMap_le _ _).trans ?_
  rw [List.length_zip]
  exact Nat.min_le_left _ _

/-- The verifier's input for elements with hints. -/
def hinted (xs : List (Elt α × π)) : List (Input α π) := xs.map fun x => .partiallyValidated x.2

def determineOutcome (ps : List (Elt α)) (res : List (Verdict ρ π)) : Task α π ρ :=
  if ps.length ≠ res.length then .raise "List.zip_exn: lists of different lengths"
  else
    fillKnown (ps.zip res) <|
    match h : potentiallyInvalid (ps.zip res) with
    -- all results are known
    | [] => .done
    | [(elt, _)] => .fill elt.id (.error ()) .done
    | x :: y :: l =>
      let left := (x :: y :: l).take ((x :: y :: l).length / 2)
      let right := (x :: y :: l).drop ((x :: y :: l).length / 2)
      (Task.call (hinted left) fun resLeft => determineOutcome (left.map (·.1)) resLeft).andThen
        (.call (hinted right) fun resRight => determineOutcome (right.map (·.1)) resRight)
termination_by ps.length
decreasing_by
  all_goals
    have hle := length_potentiallyInvalid_le ps res
    simp only [h, List.length_cons, List.length_map, List.length_take, List.length_drop] at hle ⊢
    omega

/-! ## The batcher -/

inductive HowToAdd where
  | insert
  | enqueueBack

/-- What does not change: how elements are queued and weighed, the weight
of a batch, and what the verifier answers. -/
structure Config (α π ρ : Type) where
  howToAdd : HowToAdd
  compareInit : Option (α → α → Ordering)
  weight : α → Int
  maxWeightPerCall : Option Int
  verifier : List (Input α π) → Exn (List (Verdict ρ π))

inductive Status (α π ρ : Type) where
  | waiting
  /-- The batch, and the call that is out with what is to be done then. -/
  | verifying (outForVerification : List (Elt α)) (input : List (Input α π))
      (k : List (Verdict ρ π) → Task α π ρ)

structure State (α π ρ : Type) where
  status : Status α π ρ
  queue : List (Elt α)
  nextId : Nat
  /-- The result variables that are filled. -/
  answers : List (Nat × Answer ρ)

def create : State α π ρ where
  status := .waiting
  queue := []
  nextId := 0
  answers := []

/-- Take elements off the queue while their weight fits the capacity. -/
def takeCapacity : Int → List (Elt α) → List (Elt α) × List (Elt α)
  | _, [] => ([], [])
  | capacity, elt :: queue =>
    if elt.weight ≤ capacity then
      let (proofs, rest) := takeCapacity (capacity - elt.weight) queue
      (elt :: proofs, rest)
    else ([], elt :: queue)

def takeBatch (K : Config α π ρ) (queue : List (Elt α)) : List (Elt α) × List (Elt α) :=
  match K.maxWeightPerCall with
  | none => (queue, [])
  | some maxWeight => takeCapacity maxWeight queue

def compareElt (compare : α → α → Ordering) (t₁ t₂ : Elt α) : Ordering :=
  (compare t₁.data t₂.data).then (Ord.compare t₁.id t₂.id)

def orderProofs (K : Config α π ρ) (proofs : List (Elt α)) : List (Elt α) :=
  match K.compareInit with
  | none => proofs
  | some compare => proofs.mergeSort fun t₁ t₂ => (compareElt compare t₁ t₂).isLE

def startVerifier (K : Config α π ρ) (s : State α π ρ) : State α π ρ :=
  if s.queue.isEmpty then { s with status := .waiting }
  else
    let (proofs, queue) := takeBatch K s.queue
    let outForVerification := orderProofs K proofs
    { s with
      queue := queue
      status := .verifying outForVerification (outForVerification.map fun elt => .init elt.data)
        fun res => determineOutcome outForVerification res }

/-- Put an element before the first that it is less than, or last. -/
def insertBefore (compare : α → α → Ordering) (elt : Elt α) : List (Elt α) → List (Elt α)
  | [] => [elt]
  | e :: queue =>
    if compareElt compare elt e = .lt then elt :: e :: queue else e :: insertBefore compare elt queue

def enqueue (K : Config α π ρ) (elt : Elt α) (queue : List (Elt α)) : List (Elt α) :=
  match K.howToAdd, K.compareInit with
  | .enqueueBack, _ => queue ++ [elt]
  | .insert, none => queue ++ [elt]
  | .insert, some compare => insertBefore compare elt queue

def verify (K : Config α π ρ) (s : State α π ρ) (proof : α) : State α π ρ :=
  let elt : Elt α := ⟨s.nextId, proof, K.weight proof⟩
  let s := { s with queue := enqueue K elt s.queue, nextId := s.nextId + 1 }
  match s.status with
  | .verifying _ _ _ => s
  | .waiting => startVerifier K s

/-- Run a computation to its next call. Filling a variable that is full raises. -/
def settle (answers : List (Nat × Answer ρ)) :
    Task α π ρ → Exn (List (Nat × Answer ρ) × Option (List (Input α π) × (List (Verdict ρ π) → Task α π ρ)))
  | .done => .ok (answers, none)
  | .fill id answer rest =>
    if id ∈ answers.map (·.1) then .error "Ivar.fill of a full ivar" else settle (answers ++ [(id, answer)]) rest
  | .call input k => .ok (answers, some (input, k))
  | .raise message => .error message

/-- The verifier answers the call that is out. -/
def returns (K : Config α π ρ) (s : State α π ρ) : Exn (State α π ρ) :=
  match s.status with
  | .waiting => .ok s
  | .verifying out input k =>
    (K.verifier input).andThen fun res =>
    (settle s.answers (k res)).andThen fun (answers, next) =>
    match next with
    | some (input', k') => .ok { s with answers := answers, status := .verifying out input' k' }
    | none => .ok (startVerifier K { s with answers := answers })

/-! ## Runs -/

inductive Event (α : Type) where
  | verify (proof : α)
  | returns

def step (K : Config α π ρ) (s : State α π ρ) : Event α → Exn (State α π ρ)
  | .verify proof => .ok (Batcher.verify K s proof)
  | .returns => Batcher.returns K s

/-- What a sequence of events makes of an empty batcher. -/
def run (K : Config α π ρ) (events : List (Event α)) : Exn (State α π ρ) :=
  Exn.fold (step K) create events

/-- The items that came in, in the order of their ids. -/
def submitted : List (Event α) → List α
  | [] => []
  | .verify proof :: events => proof :: submitted events
  | .returns :: events => submitted events

end Mina.Batcher
