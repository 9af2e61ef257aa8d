/-
The transition processor (`transition_handler/processor.ml`): its loop takes
breadcrumbs from catchup, breadcrumbs that this node produced and gossiped
blocks, attaches them to the frontier and finalises their `Cached.t`s.

The frontier is `Fr`, and what it answers is given by functions: `find`,
`add_breadcrumb_exn`, which may raise, and whether a block is selected over
the root. So are the outcome of building a breadcrumb and what
`Catchup_scheduler.notify` returns. `watch` is the catchup scheduler's own
(`cachedOf` is the `Cached.t` that the scheduler holds for a hash), with the
peeks that it makes at the siblings. A handler is one step: what else runs
while it waits does not use the message's `Cached.t`s. Metrics, logs and
trust records are left out, and the pipe of processed transitions is a list
whose reader keeps up.

`handed` and `watched` record which `Cached.t`s of the message were given to
`add_and_finalize` and to `watch`.
-/
import Mina.CacheLib.Cache
import Mina.TransitionHandler.CatchupScheduler

namespace Mina.TransitionHandler.Processor

/-! ## Values -/

inductive BuildError where
  | invalidStagedLedgerHash (error : String)
  | invalidStagedLedgerDiff (error : String)
  | fatalError (exn : String)
  deriving DecidableEq

/-- An enveloped block; `deltaStateHash` is the head of its delta transition
chain. -/
structure Block (F : Type) where
  transition : Transition F
  deltaStateHash : F
  deriving DecidableEq

/-- The values of the `Cached.t`s that the processor handles. A deferred
holds what it will be determined to. -/
inductive Value (F Bc : Type) where
  | transition (block : Block F)
  | deferred (result : Except BuildError Bc)
  | result (result : Except BuildError Bc)
  | breadcrumb (breadcrumb : Bc)

inductive ValidationError where
  | notSelectedOverFrontierRoot
  | alreadyInFrontier
  | parentMissingFromFrontier
  deriving DecidableEq

inductive Source where
  | internal
  | catchup
  | gossip
  deriving DecidableEq

/-- `Or_error.t` of unit. -/
abbrev OrErrorUnit := Except String Unit

variable {F Bc Fr : Type} [DecidableEq F]

namespace Value

def asTransition : F ⊕ Value F Bc → Exn (Block F)
  | .inr (.transition block) => .ok block
  | _ => .error "not a transition"

def asBreadcrumb : F ⊕ Value F Bc → Exn Bc
  | .inr (.breadcrumb b) => .ok b
  | _ => .error "not a breadcrumb"

/-- What a deferred is determined to. -/
def determined : F ⊕ Value F Bc → Value F Bc
  | .inr (.deferred r) => .result r
  | _ => .result (.error (.fatalError "not a deferred"))

def asResult : F ⊕ Value F Bc → Except BuildError (Value F Bc)
  | .inr (.result (.ok b)) => .ok (.breadcrumb b)
  | .inr (.result (.error e)) => .error e
  | _ => .error (.fatalError "not a result")

end Value

/-! ## State -/

/-- What the processor calls. -/
structure Env (F Bc Fr : Type) where
  now : UInt64
  catchupTimeoutDuration : UInt64
  find : Fr → F → Option Bc
  /-- `Consensus.Hooks.select` takes the block over the frontier's root. -/
  selected : Fr → Block F → Bool
  addBreadcrumbExn : Fr → Bc → Exn Fr
  build : Fr → Block F → Bc → Except BuildError Bc
  validatedTransition : Bc → Transition F
  notify : T F → F → OrErrorUnit × T F

structure State (F Bc Fr : Type) where
  cache : CacheLib.T F (Value F Bc)
  frontier : Fr
  catchupScheduler : T F
  cachedOf : F → Nat
  processedTransitions : List (Transition F × Source)
  decrementSignals : List Nat
  handed : List Nat
  watched : List Nat

/-! ## `Rose_tree.Deferred.Or_error.iter` -/

section Iter

variable {σ ι : Type} (f : σ → ι → Exn (OrErrorUnit × σ))

mutual

def iterTree (s : σ) : RoseTree ι → Exn (OrErrorUnit × σ)
  | .node base successors => (f s base).andThen fun r =>
    match r.1 with
    | .error e => .ok (.error e, r.2)
    | .ok () => iterTrees r.2 successors

/-- `Deferred.Or_error.List.iter` over trees. -/
def iterTrees (s : σ) : List (RoseTree ι) → Exn (OrErrorUnit × σ)
  | [] => .ok (.ok (), s)
  | tree :: trees => (iterTree s tree).andThen fun r =>
    match r.1 with
    | .error e => .ok (.error e, r.2)
    | .ok () => iterTrees r.2 trees

end

end Iter

variable (env : Env F Bc Fr)

/-! ## `add_and_finalize` -/

/-- The breadcrumb of a `Cached.t` that is handed to `add_and_finalize`. -/
def finalizeBreadcrumb (s : State F Bc Fr) (h : Nat) : Exn (Bc × State F Bc Fr) :=
  let s := { s with handed := h :: s.handed }
  (CacheLib.find s.cache h).andThen fun c =>
    if c.isPure then
      (CacheLib.peek s.cache h).andThen fun value => (Value.asBreadcrumb value).andThen fun b => .ok (b, s)
    else
      (CacheLib.invalidateWithSuccess s.cache h).andThen fun r =>
        (Value.asBreadcrumb r.1).andThen fun b => .ok (b, { s with cache := r.2 })

/-- With `only_if_present` a breadcrumb is attached only to a parent that the
frontier has. -/
def attach (frontier : Fr) (onlyIfPresent : Bool) (breadcrumb : Bc) : Exn Fr :=
  if onlyIfPresent then
    match env.find frontier (env.validatedTransition breadcrumb).parentHash with
    | some _ => env.addBreadcrumbExn frontier breadcrumb
    | none => .ok frontier
  else env.addBreadcrumbExn frontier breadcrumb

def addAndFinalize (onlyIfPresent : Bool) (source : Source) (s : State F Bc Fr) (h : Nat) :
    Exn (OrErrorUnit × State F Bc Fr) :=
  (finalizeBreadcrumb s h).andThen fun r =>
    (attach env r.2.frontier onlyIfPresent r.1).andThen fun frontier =>
      let transition := env.validatedTransition r.1
      let notified := env.notify r.2.catchupScheduler transition.stateHash
      .ok (notified.1, { r.2 with
        frontier
        processedTransitions := r.2.processedTransitions ++ [(transition, source)]
        catchupScheduler := notified.2 })

/-! ## `process_transition` -/

def validateFrontierDependencies (frontier : Fr) (block : Block F) : Except ValidationError Unit :=
  if (env.find frontier block.transition.stateHash).isSome then .error .alreadyInFrontier
  else if !env.selected frontier block then .error .notSelectedOverFrontierRoot
  else if (env.find frontier block.transition.parentHash).isNone then .error .parentMissingFromFrontier
  else .ok ()

/-- Whether a sibling that is watched already has the hash. -/
def existsSibling (cache : CacheLib.T F (Value F Bc)) (cachedOf : F → Nat) (hash : F) :
    List (Transition F) → Exn Bool
  | [] => .ok false
  | sibling :: siblings => (CacheLib.peek cache (cachedOf sibling.stateHash)).andThen fun _ =>
    if hash = sibling.stateHash then .ok true else existsSibling cache cachedOf hash siblings

/-- `Catchup_scheduler.watch`. -/
def watchCached (s : State F Bc Fr) (timeoutDuration : UInt64) (h : Nat) : Exn (State F Bc Fr) :=
  let s := { s with watched := h :: s.watched }
  (CacheLib.peek s.cache h).andThen fun value =>
    (Value.asTransition value).andThen fun block =>
      let transition := block.transition
      let watched := fun (t : T F) =>
        { s with catchupScheduler := t, cachedOf := Function.update s.cachedOf transition.stateHash h }
      match s.catchupScheduler.collectedTransitions.lookup transition.parentHash with
      | none =>
        (watch s.catchupScheduler env.now timeoutDuration transition).andThen fun t => .ok (watched t)
      | some siblings =>
        (existsSibling s.cache s.cachedOf transition.stateHash siblings).andThen fun found =>
          if found then .ok s
          else (watch s.catchupScheduler env.now timeoutDuration transition).andThen fun t => .ok (watched t)

/-- `cached_transform_deferred_result`; a transformed result that is an error
ends the handler, and a fatal one is raised. -/
def buildBreadcrumb (s : State F Bc Fr) (h : Nat) (result : Except BuildError Bc) :
    Exn (Except Unit Nat × State F Bc Fr) :=
  (CacheLib.transform s.cache h fun _ => .deferred result).andThen fun r₁ =>
    (CacheLib.sequenceDeferred r₁.2 r₁.1 Value.determined).andThen fun r₂ =>
      (CacheLib.sequenceResult r₂.2 r₂.1 Value.asResult).andThen fun r₃ =>
        let s := { s with cache := r₃.2 }
        match r₃.1 with
        | .error (.invalidStagedLedgerHash _) => .ok (.error (), s)
        | .error (.invalidStagedLedgerDiff _) => .ok (.error (), s)
        | .error (.fatalError exn) => .error exn
        | .ok breadcrumb => .ok (.ok breadcrumb, s)

def processTransition (s : State F Bc Fr) (h : Nat) : Exn (State F Bc Fr) :=
  (CacheLib.peek s.cache h).andThen fun value =>
    (Value.asTransition value).andThen fun block =>
      match validateFrontierDependencies env s.frontier block with
      | .error .notSelectedOverFrontierRoot =>
        (CacheLib.invalidateWithFailure s.cache h).andThen fun r => .ok { s with cache := r.2 }
      | .error .alreadyInFrontier =>
        (CacheLib.invalidateWithFailure s.cache h).andThen fun r => .ok { s with cache := r.2 }
      | .error .parentMissingFromFrontier =>
        let timeoutDuration :=
          match env.find s.frontier block.deltaStateHash with
          | none => 0
          | some _ => env.catchupTimeoutDuration
        watchCached env s timeoutDuration h
      | .ok () =>
        match env.find s.frontier block.transition.parentHash with
        | none => .error "Could not find breadcrumb"
        | some parent =>
          (buildBreadcrumb s h (env.build s.frontier block parent)).andThen fun r =>
            match r.1 with
            | .error () => .ok r.2
            | .ok breadcrumb =>
              (addAndFinalize env false .gossip r.2 breadcrumb).andThen fun r => .ok r.2

/-! ## The message loop -/

inductive Callback where
  | ledgerCatchup (decrementSignal : Nat)
  | catchupScheduler

/-- A message; `Cached.t`s are positions in the cache's state. -/
inductive Message where
  | catchupBreadcrumbs (subtrees : List (RoseTree Nat)) (callback : Callback)
  | localBreadcrumb (breadcrumb : Nat)
  | partiallyValidTransition (transition : Nat)

/-- `Ivar.fill decrement_signal ()`. -/
def fillSignal (s : State F Bc Fr) : Callback → Exn (State F Bc Fr)
  | .ledgerCatchup signal =>
    if signal ∈ s.decrementSignals then .error "Ivar.fill called on full ivar"
    else .ok { s with decrementSignals := signal :: s.decrementSignals }
  | .catchupScheduler => .ok s

def invalidateBreadcrumb (s : State F Bc Fr) (h : Nat) : Exn (OrErrorUnit × State F Bc Fr) :=
  (CacheLib.invalidateWithFailure s.cache h).andThen fun r => .ok (.ok (), { s with cache := r.2 })

def handleMessage (s : State F Bc Fr) (message : Message) : Exn (State F Bc Fr) :=
  let s := { s with handed := [], watched := [] }
  match message with
  | .catchupBreadcrumbs subtrees callback =>
    (iterTrees (addAndFinalize env true .catchup) s subtrees).andThen fun r =>
      match r.1 with
      | .ok () => fillSignal r.2 callback
      | .error _ =>
        (iterTrees invalidateBreadcrumb r.2 subtrees).andThen fun r => fillSignal r.2 callback
  | .localBreadcrumb breadcrumb =>
    (CacheLib.peek s.cache breadcrumb).andThen fun _ =>
      (addAndFinalize env false .internal s breadcrumb).andThen fun r =>
        match r.1 with
        | .ok () => .ok r.2
        | .error _ =>
          (CacheLib.invalidateWithFailure r.2.cache breadcrumb).andThen fun r' => .ok { r.2 with cache := r'.2 }
  | .partiallyValidTransition transition => processTransition env s transition

end Mina.TransitionHandler.Processor
