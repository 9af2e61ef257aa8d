/-
Caches of registered values (`cache_lib/impl.ml`): an element is in its cache
from `register_exn` on, and who registered it holds a `Cached.t`. A
`Cached.t` can be transformed into another one for the same registration,
which shares its `final_state`; invalidating one removes the element, and so
does the finalizer of one that the program dropped without consuming it.

The mutable parts are a state: the table of the cache, the contents of the
`final_state` ivars, the `Cached.t`s that were made (`transformed` is the flag
of each) and those whose finalizer has run. A `Cached.t` is a position among
them. Values of any type but the element's own are `B`; `events` records what
the hooks were called with and when an ivar was filled, the newest first,
together with the `final_state` of the `Cached.t` that it was done for.
-/
import Mina.Base.Exn

namespace Mina.CacheLib

inductive Reason where
  | consumed
  | unconsumed
  | failure
  deriving DecidableEq

inductive FinalState (A : Type) where
  | failed
  | success (data : A)
  deriving DecidableEq

/-- `Cached.t`; `finalState` is the position of the ivar. -/
inductive Cached (A B : Type) where
  | base (data : A) (transformed : Bool) (finalState : Nat)
  | derivative (original : A) (mutant : B) (transformed : Bool) (finalState : Nat)
  | pure (value : B)
  deriving DecidableEq

inductive Event (A : Type) where
  | onAdd (x : A) (finalState : Nat)
  | fill (finalState : Nat)
  /-- `entry` is what the table had at `x`. -/
  | onRemove (reason : Reason) (x : A) (finalState : Nat) (entry : Option Nat)
  deriving DecidableEq

structure T (A B : Type) where
  elementToString : A → String
  set : A → Option Nat
  finalStates : List (Option (FinalState A))
  handles : List (Cached A B)
  collected : List Nat
  events : List (Event A)

variable {A B E : Type}

def create (elementToString : A → String) : T A B where
  elementToString
  set := fun _ => none
  finalStates := []
  handles := []
  collected := []
  events := []

/-- The `Cached.t` at a position. -/
def find (t : T A B) (h : Nat) : Exn (Cached A B) :=
  match t.handles[h]? with
  | some c => .ok c
  | none => .error "no such Cached.t"

/-! ## Parts of a `Cached.t` -/

namespace Cached

def isPure : Cached A B → Bool
  | .base .. => false
  | .derivative .. => false
  | .pure _ => true

def value : Cached A B → A ⊕ B
  | .base data _ _ => .inl data
  | .derivative _ mutant _ _ => .inr mutant
  | .pure value => .inr value

def original : Cached A B → Exn A
  | .base data _ _ => .ok data
  | .derivative original _ _ _ => .ok original
  | .pure _ => .error "cannot access original of pure Cached.t"

def finalState : Cached A B → Exn Nat
  | .base _ _ finalState => .ok finalState
  | .derivative _ _ _ finalState => .ok finalState
  | .pure _ => .error "cannot access consumed state of pure Cached.t"

def markTransformed : Cached A B → Exn (Cached A B)
  | .base data _ finalState => .ok (.base data true finalState)
  | .derivative original mutant _ finalState => .ok (.derivative original mutant true finalState)
  | .pure _ => .error "cannot set transformed status for pure Cached.t"

end Cached

/-- `Ivar.is_full`. -/
def isFull (t : T A B) (finalState : Nat) : Bool := (t.finalStates[finalState]?.getD none).isSome

def wasConsumed (t : T A B) : Cached A B → Bool
  | .base _ transformed finalState => isFull t finalState || transformed
  | .derivative _ _ transformed finalState => isFull t finalState || transformed
  | .pure _ => false

def wasFinalized (t : T A B) : Cached A B → Bool
  | .base _ _ finalState => isFull t finalState
  | .derivative _ _ _ finalState => isFull t finalState
  | .pure _ => false

def assertNotConsumed (t : T A B) (c : Cached A B) (msg : String) : Exn Unit :=
  if wasConsumed t c then c.original.andThen fun x => .error (msg ++ ": " ++ t.elementToString x) else .ok ()

def assertNotFinalized (t : T A B) (c : Cached A B) (msg : String) : Exn Unit :=
  if wasFinalized t c then c.original.andThen fun x => .error (msg ++ ": " ++ t.elementToString x) else .ok ()

/-! ## Effects -/

/-- `Ivar.fill`. -/
def fill (t : T A B) (finalState : Nat) (value : FinalState A) : Exn (T A B) :=
  if isFull t finalState then .error "Ivar.fill called on full ivar"
  else .ok { t with
    finalStates := t.finalStates.set finalState (some value)
    events := .fill finalState :: t.events }

/-- `mark_failed` and `mark_success` differ in what they fill the ivar with. -/
def mark (value : A → FinalState A) (t : T A B) (c : Cached A B) : Exn (T A B) :=
  match c with
  | .base data _ finalState => fill t finalState (value data)
  | .derivative original _ _ finalState => fill t finalState (value original)
  | .pure _ => .error "cannot set consumed state of pure Cached.t"

def markFailed (t : T A B) (c : Cached A B) : Exn (T A B) := mark (fun _ => .failed) t c

def markSuccess (t : T A B) (c : Cached A B) : Exn (T A B) := mark .success t c

variable [DecidableEq A]

/-- `Cache.remove`, for the registration of `finalState`. -/
def remove (t : T A B) (reason : Reason) (x : A) (finalState : Nat) : T A B :=
  { t with
    set := Function.update t.set x none
    events := .onRemove reason x finalState (t.set x) :: t.events }

/-! ## Operations -/

/-- `Cache.register_exn`. -/
def registerExn (t : T A B) (x : A) : Exn (Nat × T A B) :=
  match t.set x with
  | some _ => .error "Hashtbl.add_exn got key already present"
  | none =>
    let finalState := t.finalStates.length
    .ok (t.handles.length, { t with
      set := Function.update t.set x (some finalState)
      finalStates := t.finalStates ++ [none]
      handles := t.handles ++ [.base x false finalState]
      events := .onAdd x finalState :: t.events })

/-- `Cached.pure`. -/
def pure (t : T A B) (value : B) : Nat × T A B :=
  (t.handles.length, { t with handles := t.handles ++ [.pure value] })

def peek (t : T A B) (h : Nat) : Exn (A ⊕ B) :=
  (find t h).andThen fun c =>
    (assertNotFinalized t c "cannot peek at finalized Cached.t").andThen fun _ => .ok c.value

/-- What `transform` does before it calls its function, and all it does if
the function raises. -/
def transformed (t : T A B) (h : Nat) : Exn (Cached A B × T A B) :=
  (find t h).andThen fun c =>
    (assertNotConsumed t c "cannot consume Cached.t twice").andThen fun _ =>
      c.markTransformed.andThen fun marked => .ok (c, { t with handles := t.handles.set h marked })

def transform (t : T A B) (h : Nat) (f : A ⊕ B → B) : Exn (Nat × T A B) :=
  (transformed t h).andThen fun r =>
    r.1.original.andThen fun original =>
      r.1.finalState.andThen fun finalState =>
        .ok (t.handles.length, { r.2 with
          handles := r.2.handles ++ [.derivative original (f r.1.value) false finalState] })

/-- What a deferred of `sequence_deferred` becomes determined to is what
`determined` reads in it. -/
def sequenceDeferred (t : T A B) (h : Nat) (determined : A ⊕ B → B) : Exn (Nat × T A B) :=
  (peek t h).andThen fun value => transform t h fun _ => determined value

/-- `invalidate_with_failure` and `invalidate_with_success`. -/
def invalidate (marked : T A B → Cached A B → Exn (T A B)) (reason : Reason) (t : T A B) (h : Nat) :
    Exn ((A ⊕ B) × T A B) :=
  (find t h).andThen fun c =>
    (assertNotFinalized t c "Cached item has already been finalized").andThen fun _ =>
      (marked t c).andThen fun t' =>
        c.original.andThen fun original =>
          c.finalState.andThen fun finalState => .ok (c.value, remove t' reason original finalState)

def invalidateWithFailure (t : T A B) (h : Nat) : Exn ((A ⊕ B) × T A B) := invalidate markFailed .failure t h

def invalidateWithSuccess (t : T A B) (h : Nat) : Exn ((A ⊕ B) × T A B) := invalidate markSuccess .consumed t h

/-- `result` reads a value as the `Result.t` that it is. -/
def sequenceResult (t : T A B) (h : Nat) (result : A ⊕ B → Except E B) : Exn (Except E Nat × T A B) :=
  (peek t h).andThen fun value =>
    match result value with
    | .ok x => (transform t h fun _ => x).andThen fun r => .ok (.ok r.1, r.2)
    | .error err => (invalidateWithFailure t h).andThen fun r => .ok (.error err, r.2)

/-- The finalizer that `attach_finalizer` adds; a pure `Cached.t` has none. -/
def finalizer (t : T A B) (h : Nat) : T A B :=
  match t.handles[h]? with
  | some (.base data transformed finalState) =>
    let t' := { t with collected := h :: t.collected }
    if wasConsumed t (.base data transformed finalState) then t' else remove t' .unconsumed data finalState
  | some (.derivative original mutant transformed finalState) =>
    let t' := { t with collected := h :: t.collected }
    if wasConsumed t (.derivative original mutant transformed finalState) then t'
    else remove t' .unconsumed original finalState
  | _ => t

/-! ## Runs -/

/-- What the program does next; `transformRaised` is a `transform` whose
function raises. -/
inductive Op (A B E : Type) where
  | registerExn (x : A)
  | transform (h : Nat) (f : A ⊕ B → B)
  | transformRaised (h : Nat)
  | sequenceResult (h : Nat) (result : A ⊕ B → Except E B)
  | invalidateWithSuccess (h : Nat)
  | invalidateWithFailure (h : Nat)
  | finalizer (h : Nat)

/-- An operation that raises leaves the state as it was. -/
def settled {α : Type} (t : T A B) (r : Exn (α × T A B)) : T A B :=
  match r with
  | .ok r => r.2
  | .error _ => t

def step (t : T A B) : Op A B E → T A B
  | .registerExn x => settled t (registerExn t x)
  | .transform h f => settled t (transform t h f)
  | .transformRaised h => settled t (transformed t h)
  | .sequenceResult h result => settled t (sequenceResult t h result)
  | .invalidateWithSuccess h => settled t (invalidateWithSuccess t h)
  | .invalidateWithFailure h => settled t (invalidateWithFailure t h)
  | .finalizer h => finalizer t h

/-- The `Cached.t` that an operation is given. -/
def Op.handle : Op A B E → Option Nat
  | .registerExn _ => none
  | .transform h _ => some h
  | .transformRaised h => some h
  | .sequenceResult h _ => some h
  | .invalidateWithSuccess h => some h
  | .invalidateWithFailure h => some h
  | .finalizer h => some h

/-- A finalizer runs once, and the program does not use its `Cached.t` any
more. -/
def Allowed (t : T A B) (op : Op A B E) : Prop := ∀ h, op.handle = some h → h ∉ t.collected

end Mina.CacheLib
