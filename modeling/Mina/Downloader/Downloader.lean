/-
The downloader (`lib/downloader/downloader.ml`): jobs are pending or
downloading, both by key. The step loop takes batches of pending jobs to
peers, and what runs when a peer has answered edits both tables for all jobs
of its batch.

A job's result variable is a number, and `results` says what is in it. Which
peer `useful_peer` picks, and which keys that peer may know, is any; the
knowledge about peers, times, signals and logging are left out, and so is
`stop`. The key of a result and the attempt `Attempt.download` are parameters.
-/
import Mina.Base.Currency
import Mina.Base.Exn

namespace Mina.Downloader

structure Job (K P A : Type) where
  key : K
  attempts : P → Option A
  res : Nat

/-- What a result variable is filled with: an answer with its sender, or
`` `Finished``. -/
inductive Filled (P A R : Type) where
  | ok (data : R) (sender : P) (attempts : P → Option A)
  | finished

variable {K P A R : Type} [LinearOrder K] [DecidableEq P]

/-! ## The queue -/

namespace Q

/-- In front of the first job with a greater key. -/
def insert (e : Job K P A) : List (Job K P A) → List (Job K P A)
  | [] => [e]
  | x :: queue => if e.key < x.key then e :: x :: queue else x :: insert e queue

/-- Nothing if the key is already present. -/
def enqueue (queue : List (Job K P A)) (e : Job K P A) : Option (List (Job K P A)) :=
  if queue.any fun x => x.key = e.key then none else some (insert e queue)

def lookup (queue : List (Job K P A)) (k : K) : Option (Job K P A) := queue.find? fun x => x.key = k

def remove (queue : List (Job K P A)) (k : K) : List (Job K P A) := queue.filter fun x => x.key ≠ k

end Q

/-! ## The downloader -/

structure T (K P A R : Type) where
  pending : List (Job K P A)
  downloading : K → Option (P × Job K P A)
  maxBatchSize : Nat
  results : Nat → Option (Filled P A R)
  /-- The next result variable. -/
  nextRes : Nat

def create (maxBatchSize : Nat) : T K P A R where
  pending := []
  downloading _ := none
  maxBatchSize
  results _ := none
  nextRes := 0

/-- `Ivar.fill_if_empty`. -/
def fillIfEmpty (t : T K P A R) (res : Nat) (x : Filled P A R) : T K P A R :=
  match t.results res with
  | none => { t with results := Function.update t.results res (some x) }
  | some _ => t

def removeDownloading (t : T K P A R) (k : K) : T K P A R :=
  { t with downloading := Function.update t.downloading k none }

def jobFinished (t : T K P A R) (j : Job K P A) (x : Filled P A R) : T K P A R :=
  fillIfEmpty (removeDownloading t j.key) j.res x

def killJob (t : T K P A R) (j : Job K P A) : T K P A R := fillIfEmpty t j.res .finished

def cancel (t : T K P A R) (h : K) : T K P A R :=
  let job := (Q.lookup t.pending h).or ((t.downloading h).map (·.2))
  let t := removeDownloading { t with pending := Q.remove t.pending h } h
  match job with
  | none => t
  | some j => killJob t j

def enqueueExn (t : T K P A R) (e : Job K P A) : Exn (T K P A R) :=
  match Q.enqueue t.pending e with
  | some pending => .ok { t with pending }
  | none => .error "Assert_failure"

/-- The `download` of the interface. -/
def download (t : T K P A R) (key : K) (attempts : P → Option A) : Exn (T K P A R × Job K P A) :=
  match Q.lookup t.pending key, t.downloading key with
  | some _, some _ => .error "Assert_failure"
  | some x, none => .ok (t, x)
  | none, some (_, x) => .ok (t, x)
  | none, none =>
    let e := { key, attempts, res := t.nextRes }
    (enqueueExn { t with nextRes := t.nextRes + 1 } e).andThen fun t => .ok (t, e)

/-! ## Batches -/

/-- The batch of `step` for a peer that might know some keys. -/
def toDownload (t : T K P A R) (mightKnow : K → Bool) : List (Job K P A) :=
  (t.pending.filter fun j => mightKnow j.key).take t.maxBatchSize

def setDownloading (peer : P) (downloading : K → Option (P × Job K P A)) (x : Job K P A) : K → Option (P × Job K P A) :=
  Function.update downloading x.key (some (peer, x))

/-- `step` takes the batch out of the queue, and `download` up to where it asks
the peer. -/
def startDownload (t : T K P A R) (peer : P) (xs : List (Job K P A)) : T K P A R :=
  { t with
    pending := xs.foldl (fun queue j => Q.remove queue j.key) t.pending
    downloading := xs.foldl (setDownloading peer) t.downloading }

inductive Answer (R : Type) where
  | error
  | ok (results : List R)

/-- What `download` goes on with. It is stopped when all its jobs are filled. -/
inductive Outcome (R : Type) where
  | stopped
  | notStopped (answer : Answer R)

variable (keyOf : R → K) (attemptDownload : A)

/-- A job goes back to the queue, with the attempt. -/
def retry (peer : P) (t : T K P A R) (x : Job K P A) : Exn (T K P A R) :=
  enqueueExn t { x with attempts := Function.update x.attempts peer (some attemptDownload) }

/-- One result of an answer: the jobs of the batch that are left have not got
theirs yet. -/
def handleResult (peer : P) (acc : T K P A R × List (Job K P A)) (r : R) : T K P A R × List (Job K P A) :=
  match acc.2.find? fun x => x.key = keyOf r with
  | none => acc
  | some j => (jobFinished acc.1 j (.ok r peer j.attempts), acc.2.filter fun x => x.key ≠ j.key)

/-- `download` from where the peer has answered or all jobs are filled. -/
def finishDownload (t : T K P A R) (peer : P) (xs : List (Job K P A)) : Outcome R → Exn (T K P A R)
  | .stopped => .ok (xs.foldl killJob (xs.foldl (fun t j => removeDownloading t j.key) t))
  | .notStopped .error =>
    Exn.fold (retry attemptDownload peer) (xs.foldl (fun t j => removeDownloading t j.key) t) xs
  | .notStopped (.ok rs) =>
    if (xs.map (·.key)).Nodup then
      let (t, jobs) := rs.foldl (handleResult keyOf peer) (xs.foldl (fun t j => removeDownloading t j.key) t, xs)
      Exn.fold (fun t x => retry attemptDownload peer (removeDownloading t x.key) x) t jobs
    else .error "Table.of_alist_exn: duplicate key"

/-! ## Runs -/

/-- What callers and peers do to a downloader. -/
inductive Event (K P A R : Type) where
  | download (key : K) (attempts : P → Option A)
  | cancel (key : K)
  | step (peer : P) (mightKnow : K → Bool)
  | answered (batch : Nat) (answer : Answer R)
  | stopped (batch : Nat)

/-- The downloader with the batches that are in flight. `issued` has the keys
of the jobs that were returned to callers, by their result variables, and
`answers` what peers have answered to which batches. -/
structure World (K P A R : Type) where
  t : T K P A R
  inFlight : Nat → Option (P × List (Job K P A))
  nextBatch : Nat
  issued : Nat → Option K
  answers : List (P × List (Job K P A) × List R)

def start (maxBatchSize : Nat) : World K P A R where
  t := create maxBatchSize
  inFlight _ := none
  nextBatch := 0
  issued _ := none
  answers := []

/-- The answers with a new one; an error has no results. -/
def recorded (answers : List (P × List (Job K P A) × List R)) (peer : P) (xs : List (Job K P A)) :
    Answer R → List (P × List (Job K P A) × List R)
  | .error => answers
  | .ok rs => (peer, xs, rs) :: answers

def step (w : World K P A R) : Event K P A R → Exn (World K P A R)
  | .download key attempts =>
    (download w.t key attempts).andThen fun (t, job) =>
      .ok { w with t, issued := Function.update w.issued job.res (some job.key) }
  | .cancel key => .ok { w with t := cancel w.t key }
  | .step peer mightKnow =>
    match toDownload w.t mightKnow with
    | [] => .ok w
    | x :: xs => .ok { w with
      t := startDownload w.t peer (x :: xs)
      inFlight := Function.update w.inFlight w.nextBatch (some (peer, x :: xs))
      nextBatch := w.nextBatch + 1 }
  | .answered batch answer =>
    (Exn.valueExn (w.inFlight batch)).andThen fun (peer, xs) =>
      (finishDownload keyOf attemptDownload w.t peer xs (.notStopped answer)).andThen fun t =>
        .ok { w with t, inFlight := Function.update w.inFlight batch none, answers := recorded w.answers peer xs answer }
  | .stopped batch =>
    (Exn.valueExn (w.inFlight batch)).andThen fun (peer, xs) =>
      (finishDownload keyOf attemptDownload w.t peer xs .stopped).andThen fun t =>
        .ok { w with t, inFlight := Function.update w.inFlight batch none }

/-- An answer is to a batch in flight, and a batch stops by itself only when
all its jobs are filled. -/
def Event.Allowed (w : World K P A R) : Event K P A R → Prop
  | .answered batch _ => (w.inFlight batch).isSome = true
  | .stopped batch => ∃ peer xs, w.inFlight batch = some (peer, xs) ∧ ∀ x ∈ xs, (w.t.results x.res).isSome = true
  | _ => True

end Mina.Downloader
