/-
The rate limiter (`rate_limiter.ml`): how many operations a sender got through
in the last five minutes, for each IP and for each peer id.

A record is mutated in place, so the table that a lookup leaves has the record
at its back as it is afterwards. The capacity is rounded up in floats when a
limiter is made; here it is given. Scores are integers: what remains and a score
are not negative, so their difference does not overflow. Times are seconds.
-/
import Mathlib.Algebra.Order.Field.Rat
import Mathlib.Algebra.BigOperators.Group.List.Basic
import Mathlib.Data.Finset.Card
import Mathlib.Data.Finset.Dedup
import Mathlib.Tactic.Linarith

namespace Mina.RateLimiter

abbrev Time := ℚ

/-- Five minutes. -/
def interval : Time := 300

/-! ## Records -/

/-- For a given peer, the actions within the interval, and what remains. -/
structure Record where
  remainingCapacity : Int
  elts : List (Int × Time)

inductive Added where
  | ok
  | noSpace
  deriving DecidableEq

namespace Record

/-- The `go` of `clear_old_entries`. -/
def clear (now : Time) (remainingCapacity : Int) : List (Int × Time) → Record
  | [] => ⟨remainingCapacity, []⟩
  | e :: elts =>
    if now - e.2 > interval then clear now (remainingCapacity + e.1) elts else ⟨remainingCapacity, e :: elts⟩

def clearOldEntries (r : Record) (now : Time) : Record := clear now r.remainingCapacity r.elts

def add (r : Record) (now : Time) (score : Int) : Record × Added :=
  if 0 ≤ r.remainingCapacity - score then
    (clearOldEntries ⟨r.remainingCapacity - score, r.elts ++ [(score, now)]⟩ now, .ok)
  else (r, .noSpace)

end Record

/-! ## Tables -/

section Table

variable {K : Type} [DecidableEq K]

def lookup (table : List (K × Record)) (k : K) : Option Record := (table.find? fun e => e.1 = k).map Prod.snd

/-- The key is at the back, with the record as it is now. -/
def moveToBack (table : List (K × Record)) (k : K) (r : Record) : List (K × Record) :=
  (table.filter fun e => e.1 ≠ k) ++ [(k, r)]

def maxSize : Nat := 2048

/-- `Lru_table.t` -/
structure LruTable (K : Type) where
  table : List (K × Record)
  initialCapacity : Int

namespace LruTable

def add (t : LruTable K) (k : K) (now : Time) (score : Int) : LruTable K × Added :=
  match lookup t.table k with
  | none =>
    let table := if t.table.length ≥ maxSize then t.table.tail else t.table
    ({ t with table := table ++ [(k, ⟨t.initialCapacity, []⟩)] }, .ok)
  | some r => ({ t with table := moveToBack t.table k (r.add now score).1 }, (r.add now score).2)

def hasCapacity (t : LruTable K) (k : K) (now : Time) (score : Int) : LruTable K × Bool :=
  match lookup t.table k with
  | none => (t, true)
  | some r =>
    ({ t with table := moveToBack t.table k (r.clearOldEntries now) },
      0 ≤ (r.clearOldEntries now).remainingCapacity - score)

def create (initialCapacity : Int) : LruTable K := ⟨[], initialCapacity⟩

end LruTable

end Table

/-! ## The limiter -/

structure Peer (Ip Id : Type) where
  ip : Ip
  peerId : Id

/-- `Envelope.Sender.t` -/
inductive Sender (Ip Id : Type) where
  | local
  | remote (peer : Peer Ip Id)

inductive Answer where
  | withinCapacity
  | capacityExceeded
  deriving DecidableEq

structure Limiter (Ip Id : Type) where
  byIp : LruTable Ip
  byPeerId : LruTable Id

variable {Ip Id : Type} [DecidableEq Ip] [DecidableEq Id]

namespace Limiter

def create (initialCapacity : Int) : Limiter Ip Id := ⟨.create initialCapacity, .create initialCapacity⟩

def add (l : Limiter Ip Id) (sender : Sender Ip Id) (now : Time) (score : Int) : Limiter Ip Id × Answer :=
  match sender with
  | .local => (l, .withinCapacity)
  | .remote peer =>
    let ip := l.byIp.hasCapacity peer.ip now score
    -- the second table is looked at only if the first has capacity
    if ip.2 then
      let id := l.byPeerId.hasCapacity peer.peerId now score
      if id.2 then
        (⟨(ip.1.add peer.ip now score).1, (id.1.add peer.peerId now score).1⟩, .withinCapacity)
      else (⟨ip.1, id.1⟩, .capacityExceeded)
    else (⟨ip.1, l.byPeerId⟩, .capacityExceeded)

end Limiter

/-! ## Runs -/

/-- The arguments of `add`. -/
structure Call (Ip Id : Type) where
  sender : Sender Ip Id
  now : Time
  score : Int

namespace Call

variable {Ip Id : Type}

def ip (c : Call Ip Id) : Option Ip :=
  match c.sender with
  | .local => none
  | .remote peer => some peer.ip

def peerId (c : Call Ip Id) : Option Id :=
  match c.sender with
  | .local => none
  | .remote peer => some peer.peerId

end Call

/-- The limiter, and the calls so far with their answers. -/
structure Run (Ip Id : Type) where
  limiter : Limiter Ip Id
  trace : List (Call Ip Id × Answer)

def Run.call (s : Run Ip Id) (c : Call Ip Id) : Run Ip Id where
  limiter := (s.limiter.add c.sender c.now c.score).1
  trace := s.trace ++ [(c, (s.limiter.add c.sender c.now c.score).2)]

def run (initialCapacity : Int) (calls : List (Call Ip Id)) : Run Ip Id :=
  calls.foldl Run.call ⟨.create initialCapacity, []⟩

end Mina.RateLimiter
