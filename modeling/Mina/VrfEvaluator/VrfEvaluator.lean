/-
The worker of the VRF evaluator (`vrf_evaluator/vrf_evaluator.ml`): it
evaluates the VRF of its keys for the slots of an epoch and queues the slots
that they win, until it is given another epoch.

`Vrf.check` is a function of the epoch's data, a key and a slot. An
evaluation is interruptible: it stands at one of its binds (`At`), and what
follows a bind runs in one step, unless the signal of the interruption has
reached that bind. The ivar that `set_new_epoch_state` fills is the one of
the first bind; from there the signal goes through the nested binds of the
slots evaluated so far, in jobs of their own, so it may reach the bind where
the evaluation stands at any later time (`signal`).

Each slot in the queue is kept with the evaluation that won it. Logging and
`last_checked_slot_and_epoch`, which nothing here reads, are left out.
-/
import Mina.Consensus.ConsensusState

namespace Mina.VrfEvaluator

open Consensus (Length ConsensusConstants)

/-- `Consensus.Data.Consensus_time`. -/
abbrev ConsensusTime := Consensus.GlobalSlot

/-- `Epoch_data_for_vrf.t`; `rest` is what only `Vrf.check` reads. -/
structure EpochData (D : Type) where
  epoch : Length
  globalSlot : Length
  globalSlotSinceGenesis : Length
  rest : D
  deriving DecidableEq

/-- `Slot_won.t`; `result` is the delegator and the VRF result. -/
structure SlotWon (K R : Type) where
  producer : K
  globalSlot : Length
  globalSlotSinceGenesis : Length
  result : R
  deriving DecidableEq

inductive EvaluatorStatus where
  | at (slot : Length)
  | completed
  deriving DecidableEq

structure VrfEvaluationResult (K R : Type) where
  slotsWon : List (Nat × SlotWon K R)
  evaluatorStatus : EvaluatorStatus

/-- Where an evaluation stands. -/
inductive At (K R : Type) where
  /-- At the first bind. -/
  | start
  /-- At `Vrf.check` of the first key that is left, or at the `None` of `go`. -/
  | checking (time : ConsensusTime) (keypairs : List K)
  /-- At the slot that `evaluate_vrf` returned. -/
  | won (time : ConsensusTime) (slotWon : SlotWon K R)
  | returned
  | raised

structure Evaluation (K R D : Type) where
  epochData : EpochData D
  keypairs : List K
  interrupt : Nat
  signalled : Bool
  place : At K R

structure WorkerState (K R D : Type) where
  slotsWon : List (Nat × SlotWon K R)
  currentSlot : Option Length
  /-- The ivar that interrupts, and the data. -/
  epochData : Nat × Option (EpochData D)
  blockProducerKeys : List K
  /-- How many ivars there are, and which of them are filled. -/
  ivars : Nat
  filled : List Nat
  evaluations : List (Evaluation K R D)

variable {K R D : Type}

def create : WorkerState K R D where
  slotsWon := []
  currentSlot := none
  epochData := (0, none)
  blockProducerKeys := []
  ivars := 1
  filled := []
  evaluations := []

variable (constants : ConsensusConstants) (check : D → K → Length → Option R)

/-! ## Slots -/

/-- `Consensus_time.succ`. -/
def succ (time : ConsensusTime) : ConsensusTime := { time with slotNumber := Length.succ time.slotNumber }

/-- `Global_slot.sub`. -/
def sub (x y : Length) : Option Length := if x < y then none else some (x - y)

def slotWon (e : EpochData D) (key : K) (slot : Length) (slotDiff : Length) (result : R) : SlotWon K R where
  producer := key
  globalSlot := slot
  globalSlotSinceGenesis := e.globalSlotSinceGenesis + slotDiff
  result

/-! ## `evaluate` -/

/-- `go` up to its next bind: a slot before the start raises. -/
def go (e : EpochData D) (time : ConsensusTime) : List K → At K R
  | [] => .checking time []
  | key :: keypairs =>
    match sub time.slotNumber e.globalSlot with
    | none => .raised
    | some _ => .checking time (key :: keypairs)

/-- The evaluation comes to a place. -/
def goTo (t : WorkerState K R D) (i : Nat) (ev : Evaluation K R D) (place : At K R) : WorkerState K R D :=
  { t with evaluations := t.evaluations.set i { ev with place } }

def findWinningSlot (t : WorkerState K R D) (i : Nat) (ev : Evaluation K R D) (time : ConsensusTime) :
    WorkerState K R D :=
  let t := { t with currentSlot := some time.slotNumber }
  if ev.epochData.epoch < time.epoch then goTo { t with currentSlot := none } i ev .returned
  else goTo t i ev (go ev.epochData time ev.keypairs)

/-- What follows the bind where the evaluation stands. -/
def resume (t : WorkerState K R D) (i : Nat) (ev : Evaluation K R D) : WorkerState K R D :=
  match ev.place with
  | .start => findWinningSlot t i ev (Consensus.GlobalSlot.ofSlotNumber constants ev.epochData.globalSlot)
  | .checking time [] => findWinningSlot t i ev (succ time)
  | .checking time (key :: keypairs) =>
    match check ev.epochData.rest key time.slotNumber with
    | none => goTo t i ev (go ev.epochData time keypairs)
    | some result =>
      let slotDiff := (sub time.slotNumber ev.epochData.globalSlot).getD 0
      goTo t i ev (.won time (slotWon ev.epochData key time.slotNumber slotDiff result))
  | .won time slotWon => findWinningSlot { t with slotsWon := t.slotsWon ++ [(i, slotWon)] } i ev (succ time)
  | .returned => t
  | .raised => t

/-- `Worker_state.evaluate`, up to its first bind. -/
def evaluate (t : WorkerState K R D) : WorkerState K R D :=
  match t.epochData.2 with
  | none => t
  | some epochData =>
    { t with evaluations := t.evaluations ++
        [{ epochData, keypairs := t.blockProducerKeys, interrupt := t.epochData.1, signalled := false, place := .start }] }

/-! ## Calls -/

/-- `Ivar.fill_if_empty`. -/
def fillIfEmpty (filled : List Nat) (ivar : Nat) : List Nat := if ivar ∈ filled then filled else ivar :: filled

def update (t : WorkerState K R D) (e : EpochData D) : WorkerState K R D :=
  evaluate { t with
    filled := fillIfEmpty t.filled t.epochData.1
    slotsWon := []
    currentSlot := none
    epochData := (t.ivars, some e)
    ivars := t.ivars + 1 }

def setNewEpochState (t : WorkerState K R D) (e : EpochData D) : WorkerState K R D :=
  match t.epochData.2 with
  | none => update t e
  | some current => if current.epoch < Length.succ e.epoch then update t e else t

def slotsWonSoFar (t : WorkerState K R D) : VrfEvaluationResult K R × WorkerState K R D :=
  let evaluatorStatus := match t.currentSlot with
    | some slot => .at slot
    | none => .completed
  ({ slotsWon := t.slotsWon, evaluatorStatus }, { t with slotsWon := [] })

def updateBlockProducerKeys (t : WorkerState K R D) (keypairs : List K) : WorkerState K R D :=
  { t with blockProducerKeys := keypairs }

/-! ## Runs -/

inductive Event (K D : Type) where
  | setNewEpochState (e : EpochData D)
  | slotsWonSoFar
  | updateBlockProducerKeys (keypairs : List K)
  /-- An evaluation goes on from its bind, or the signal reaches it there. -/
  | resume (i : Nat)
  | signal (i : Nat)

/-- The worker with what `slots_won_so_far` returned since the last
`set_new_epoch_state`, and whether it answered `Completed`. -/
structure Observed (K R D : Type) where
  worker : WorkerState K R D
  returned : List (Nat × SlotWon K R)
  completed : Bool

def step (o : Observed K R D) : Event K D → Observed K R D
  | .setNewEpochState e => { worker := setNewEpochState o.worker e, returned := [], completed := false }
  | .slotsWonSoFar =>
    let answer := slotsWonSoFar o.worker
    { worker := answer.2
      returned := o.returned ++ answer.1.slotsWon
      completed := o.completed || answer.1.evaluatorStatus == .completed }
  | .updateBlockProducerKeys keypairs => { o with worker := updateBlockProducerKeys o.worker keypairs }
  | .resume i =>
    match o.worker.evaluations[i]? with
    | some ev => if ev.signalled then o else { o with worker := resume constants check o.worker i ev }
    | none => o
  | .signal i =>
    match o.worker.evaluations[i]? with
    | some ev =>
      if ev.interrupt ∈ o.worker.filled then
        { o with worker := { o.worker with evaluations := o.worker.evaluations.set i { ev with signalled := true } } }
      else o
    | none => o

def start : Observed K R D where
  worker := create
  returned := []
  completed := false

end Mina.VrfEvaluator
