/-
Downloading missing blocks (`download_transitions` of
`ledger_catchup/normal_catchup.ml`).

The hashes are split into chunks that are downloaded at the same time. Each
chunk asks one peer after another, and the chunks share the set of busy peers.
A step is what one chunk does until it waits again: for the network's peers, a
peer's answer, or ten seconds. Metrics, trust and the log are left out. What a
chunk has been given and asked is recorded beside its state.
-/
import Mina.LedgerCatchup.PeersPool

namespace Mina.LedgerCatchup

/-- `Transition_frontier.max_catchup_chunk_length` -/
def maxCatchupChunkLength : Nat := 20

variable {P B H : Type} [DecidableEq P] [DecidableEq H]

def partition {A : Type} (size : Nat) (hsize : 0 < size) : List A → List (List A)
  | [] => []
  | a :: l => (a :: l).take size :: partition size hsize ((a :: l).drop size)
  termination_by l => l.length
  decreasing_by
    rw [List.length_drop, List.length_cons]
    omega

/-- A block that a peer has sent. -/
structure Envelope (P B : Type) where
  data : B
  sender : P

/-- What a peer answers. -/
inductive Response (B : Type) where
  | error (e : String)
  | transitions (l : List B)

inductive Phase (P B : Type) where
  | starting
  | requesting (peer : P)
  | waiting
  | finished (res : Except (List String) (List (Envelope P B)))

structure Chunk (P B H : Type) where
  hashes : List H
  pool : PeersPool P
  errs : List String
  phase : Phase P B
  /-- The peers that the chunk was given, and of them those that it has asked
  and those that have failed, the last first. -/
  given : List P
  asked : List P
  failed : List P

/-- What is given: the hash of a block, how a peer is printed, and the peer
that is asked first. -/
structure Setting (P B H : Type) where
  stateHash : B → H
  sexpOfPeer : P → String
  preferredPeer : P

variable (S : Setting P B H)

def verifyAgainstHashes (transitions : List B) (hashes : List H) : Bool :=
  transitions.length = hashes.length && (transitions.zip hashes).all fun p => S.stateHash p.1 = p.2

/-- What becomes of an answer. -/
def checkResponse (peer : P) (hashes : List H) : Response B → Except String (List (Envelope P B))
  | .error e => .error e
  | .transitions l =>
    if verifyAgainstHashes S l hashes then .ok (l.map fun data => { data, sender := peer })
    else .error s!"Peer {S.sexpOfPeer peer} returned a list that is different from the one that is requested."

/-! ## A chunk -/

namespace Chunk

/-- `go` up to the next wait. -/
def go (busy : Finset P) (c : Chunk P B H) : Finset P × Chunk P B H :=
  match PeersPool.dequeue busy c.pool with
  | (.empty, pool) => (busy, { c with pool, phase := .finished (.error c.errs.reverse) })
  | (.allBusy, pool) => (busy, { c with pool, phase := .waiting })
  | (.available peer, pool) => (insert peer busy, { c with pool, phase := .requesting peer, asked := peer :: c.asked })

/-- With the peers of the network, in the order into which they are permuted. -/
def start (busy : Finset P) (c : Chunk P B H) (peers : List P) : Finset P × Chunk P B H :=
  go busy { c with pool := .create [S.preferredPeer] peers, errs := [], given := S.preferredPeer :: peers }

/-- A peer has answered. -/
def answered (busy : Finset P) (c : Chunk P B H) (peer : P) (response : Response B) : Finset P × Chunk P B H :=
  let busy := busy.erase peer
  match checkResponse S peer c.hashes response with
  | .ok x => (busy, { c with phase := .finished (.ok x) })
  | .error e => go busy { c with errs := e :: c.errs, failed := peer :: c.failed }

end Chunk

/-! ## All chunks -/

structure Download (P B H : Type) (n : Nat) where
  busy : Finset P
  chunk : Fin n → Chunk P B H

inductive Event (P B : Type) (n : Nat) where
  | peers (i : Fin n) (l : List P)
  | response (i : Fin n) (r : Response B)
  | after (i : Fin n)

variable {n : Nat}

def Download.set (d : Download P B H n) (i : Fin n) (p : Finset P × Chunk P B H) : Download P B H n :=
  { busy := p.1, chunk := Function.update d.chunk i p.2 }

/-- Nothing, if no chunk waits for the event. -/
def step (d : Download P B H n) : Event P B n → Option (Download P B H n)
  | .peers i l =>
    match (d.chunk i).phase with
    | .starting => some (d.set i ((d.chunk i).start S d.busy l))
    | _ => none
  | .response i r =>
    match (d.chunk i).phase with
    | .requesting peer => some (d.set i ((d.chunk i).answered S d.busy peer r))
    | _ => none
  | .after i =>
    match (d.chunk i).phase with
    | .waiting => some (d.set i ((d.chunk i).go d.busy))
    | _ => none

/-- The chunks of the hashes, before they have peers. -/
structure Initial (hashes : List H) (d : Download P B H n) : Prop where
  busy : d.busy = ∅
  chunks : List.ofFn (fun i => (d.chunk i).hashes) = partition maxCatchupChunkLength (by decide) hashes
  starting : ∀ i, (d.chunk i).phase = .starting ∧ (d.chunk i).asked = [] ∧ (d.chunk i).failed = []

def Phase.blocks : Phase P B → Option (List (Envelope P B))
  | .finished (.ok x) => some x
  | _ => none

/-- The `Ok` of `download_transitions`, once all chunks have one. -/
def Download.result (d : Download P B H n) : Option (List (Envelope P B)) :=
  if ∀ i, (d.chunk i).phase.blocks.isSome then
    some (List.ofFn fun i => (d.chunk i).phase.blocks.getD []).flatten
  else none

end Mina.LedgerCatchup
