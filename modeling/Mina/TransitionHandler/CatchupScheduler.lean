/-
The catchup scheduler (`transition_handler/catchup_scheduler.ml`): it collects
transitions whose parents are missing, in a table of the children of each
hash, with a timeout for each missing parent. When the timeout expires, the
transitions below the missing parent go to a catchup job; when the parent
arrives (`notify`), breadcrumbs are built from them.

Of a transition only its hash and its parent's are read. The two pipes that
the scheduler writes to are lists; they stay open and their readers keep up.
`time_controller` holds the timeouts that are running, and one that is
cancelled does not expire. Times and spans are `UInt64`, with its subtraction.

State hashes are `F`. The recursions over the table have fuel: the number of
its keys.
-/
import Mina.Base.Exn
import Mina.Base.Forest

namespace Mina.TransitionHandler

structure Transition (F : Type) where
  stateHash : F
  parentHash : F
  deriving DecidableEq

/-- `Block_time.Timeout.t` of the job for a missing parent. -/
structure Timeout (F : Type) where
  id : Nat
  parentHash : F
  startTime : UInt64
  span : UInt64

abbrev Table (F : Type) := AList fun _ : F => List (Transition F)

/-- What a job gets: the missing parent and the transitions below it. -/
abbrev Job (F : Type) := F × List (RoseTree (Transition F))

structure T (F : Type) where
  timeController : List (Timeout F)
  nextTimeoutId : Nat
  catchupJobWriter : List (Job F)
  collectedTransitions : Table F
  parentRootTimeouts : AList fun _ : F => Timeout F
  breadcrumbBuilderSupervisor : List (Job F)

def create {F : Type} : T F where
  timeController := []
  nextTimeoutId := 0
  catchupJobWriter := []
  collectedTransitions := ∅
  parentRootTimeouts := ∅
  breadcrumbBuilderSupervisor := []

variable {F : Type} [DecidableEq F]

/-! ## Tables -/

/-- `Option.value ~default:[] (Hashtbl.find _ hash)`. -/
def children (table : Table F) (hash : F) : List (Transition F) := (table.lookup hash).getD []

/-- `Hashtbl.add_exn`. -/
def addExn (table : Table F) (key : F) (data : List (Transition F)) : Exn (Table F) :=
  match table.lookup key with
  | some _ => .error "Hashtbl.add_exn got key already present"
  | none => .ok (table.insert key data)

/-- `Hashtbl.add`, whose result is ignored. -/
def addTimeout (table : AList fun _ : F => Timeout F) (key : F) (data : Timeout F) : AList fun _ : F => Timeout F :=
  match table.lookup key with
  | some _ => table
  | none => table.insert key data

/-! ## Timeouts -/

def remainingTime (timeout : Timeout F) (now : UInt64) : UInt64 := timeout.span - (now - timeout.startTime)

/-- The timeout of `hash` is stopped and removed. -/
def cancelTimeout (t : T F) (now : UInt64) (hash : F) : Option UInt64 × T F :=
  match t.parentRootTimeouts.lookup hash with
  | none => (none, { t with parentRootTimeouts := t.parentRootTimeouts.erase hash })
  | some timeout =>
    (some (remainingTime timeout now), { t with
      timeController := t.timeController.filter (·.id ≠ timeout.id)
      parentRootTimeouts := t.parentRootTimeouts.erase hash })

/-- `Timeout.create`: a new timeout runs. -/
def makeTimeout (t : T F) (now : UInt64) (parentHash : F) (duration : UInt64) : Timeout F × T F :=
  let timeout := { id := t.nextTimeoutId, parentHash, startTime := now, span := duration }
  (timeout, { t with timeController := timeout :: t.timeController, nextTimeoutId := t.nextTimeoutId + 1 })

/-! ## Trees -/

/-- Enough fuel to walk a table. -/
def fuelFor (table : Table F) : Nat := table.keys.length + 1

def extractSubtree (table : Table F) : Nat → Transition F → Exn (RoseTree (Transition F))
  | 0, _ => .error "out of fuel"
  | fuel + 1, transition =>
    (Exn.mapList (extractSubtree table fuel) (children table transition.stateHash)).andThen fun branches =>
      .ok (.node transition branches)

def extractForest (table : Table F) (hash : F) : Exn (Job F) :=
  (Exn.mapList (extractSubtree table (fuelFor table)) (children table hash)).andThen fun trees =>
    .ok (hash, trees)

def removeTree : Nat → Table F → F → Exn (Table F)
  | 0, _, _ => .error "out of fuel"
  | fuel + 1, table, parentHash =>
    Exn.fold (fun table child => removeTree fuel table child.stateHash) (table.erase parentHash)
      (children table parentHash)

/-! ## Operations -/

/-- The action of a timeout. -/
def timedOut (t : T F) (parentHash : F) : Exn (T F) :=
  (extractForest t.collectedTransitions parentHash).andThen fun forest =>
    (removeTree (fuelFor t.collectedTransitions) t.collectedTransitions parentHash).andThen fun table =>
      .ok { t with
        parentRootTimeouts := t.parentRootTimeouts.erase parentHash
        collectedTransitions := table
        catchupJobWriter := t.catchupJobWriter ++ [forest] }

def watch (t : T F) (now : UInt64) (timeoutDuration : UInt64) (transition : Transition F) : Exn (T F) :=
  let hash := transition.stateHash
  let parentHash := transition.parentHash
  match t.collectedTransitions.lookup parentHash with
  | none =>
    let (remainingTime, t) := cancelTimeout t now hash
    (addExn t.collectedTransitions parentHash [transition]).andThen fun table =>
      let table := table.insert hash (children table hash)
      let duration := match remainingTime with
        | none => timeoutDuration
        | some remainingTime => min remainingTime timeoutDuration
      let (timeout, t) := makeTimeout t now parentHash duration
      .ok { t with
        collectedTransitions := table
        parentRootTimeouts := addTimeout t.parentRootTimeouts parentHash timeout }
  | some siblings =>
    if siblings.any fun sibling => hash = sibling.stateHash then .ok t
    else
      let (_, t) := cancelTimeout t now hash
      let table := t.collectedTransitions.insert parentHash (transition :: siblings)
      .ok { t with collectedTransitions := table.insert hash (children table hash) }

/-- What `notify` returns: an error has its text and the hash in it. -/
abbrev OrError (F : Type) := Except (String × F) Unit

def notify (t : T F) (now : UInt64) (hash : F) : Exn (OrError F × T F) :=
  if t.parentRootTimeouts.lookup hash = none ∧ (t.collectedTransitions.lookup hash).isSome then
    .ok (.error ("Received notification to kill catchup job on a non-parent_root_transition: ", hash), t)
  else
    let (_, t) := cancelTimeout t now hash
    let dispatched : Exn (List (Job F)) := match t.collectedTransitions.lookup hash with
      | none => .ok []
      | some _ => (extractForest t.collectedTransitions hash).andThen fun subtrees => .ok [subtrees]
    dispatched.andThen fun jobs =>
      (removeTree (fuelFor t.collectedTransitions) t.collectedTransitions hash).andThen fun table =>
        .ok (.ok (), { t with
          collectedTransitions := table
          breadcrumbBuilderSupervisor := t.breadcrumbBuilderSupervisor ++ jobs })

/-! ## Runs -/

inductive Event (F : Type) where
  | watch (now : UInt64) (timeoutDuration : UInt64) (transition : Transition F)
  | notify (now : UInt64) (hash : F)
  | expire (id : Nat)

/-- A timeout that expires runs no more; one that is not running does not
expire. -/
def step (t : T F) : Event F → Exn (T F)
  | .watch now timeoutDuration transition => watch t now timeoutDuration transition
  | .notify now hash => (notify t now hash).andThen fun r => .ok r.2
  | .expire id =>
    match t.timeController.find? (·.id = id) with
    | none => .ok t
    | some timeout => timedOut { t with timeController := t.timeController.filter (·.id ≠ id) } timeout.parentHash

def run (t : T F) (events : List (Event F)) : Exn (T F) := Exn.fold step t events

/-! ## What is collected and what has left -/

/-- The transitions that are collected. -/
def collected (table : Table F) : List (Transition F) := table.entries.flatMap (·.2)

def IsCollected (table : Table F) (hash : F) : Prop := ∃ b ∈ collected table, b.stateHash = hash

/-- The transitions that have left. -/
def handedOn (t : T F) : List (Transition F) :=
  (t.catchupJobWriter ++ t.breadcrumbBuilderSupervisor).flatMap fun job => RoseTree.listToList job.2

/-- The transitions that an event brings: a transition that is watched, unless
it is collected already. -/
def admitted (t : T F) : Event F → List (Transition F)
  | .watch _ _ transition =>
    if (collected t.collectedTransitions).any fun b => b.stateHash = transition.stateHash then [] else [transition]
  | _ => []

/-- The transitions that the events of a run bring. -/
def admittedAll (t : T F) : List (Event F) → List (Transition F)
  | [] => []
  | event :: events =>
    admitted t event ++
      match step t event with
      | .ok t' => admittedAll t' events
      | .error _ => []

end Mina.TransitionHandler
