/-
When the processor settles the blocks of a message.

A message is settled if handling it does not raise, every registered block of
it is finalised once, as success if it was handed to `add_and_finalize` and
as failure otherwise, except for a gossiped block whose parent is missing,
which goes to the scheduler as it is; and the signal of `Ledger_catchup` is
filled once. That is so exactly if `add_breadcrumb_exn` does not raise, if
`notify` answers `Ok` for breadcrumbs that do not come from gossip, and if no
block that is watched for the missing parent is finalised
(`settles_iff`).
-/
import Mina.TransitionHandler.ProcessorFacts

namespace Mina.TransitionHandler.Processor

open CacheLib (Cached FinalState Of finalised isFull)

variable {F Bc Fr : Type} [DecidableEq F] (env : Env F Bc Fr)

/-! ## Messages -/

/-- The block of a gossiped `Cached.t`, whose registration is neither
finalised nor transformed further. -/
structure Gossiped (t : CacheLib.T F (Value F Bc)) (h : Nat) (block : Block F) (x : F) (l : Nat) : Prop where
  cached : ∃ c, t.handles[h]? = some c ∧ c.registration = some (x, l) ∧ c.transformed = false ∧
    c.value = .inr (.transition block)
  empty : t.finalStates[l]? = some none

/-- A message as its senders make it: no block of it is finalised, its
breadcrumbs belong to different registrations, and its signal is not filled. -/
def WellFormed (s : State F Bc Fr) : Message → Prop
  | .catchupBreadcrumbs subtrees callback =>
    (∀ h ∈ RoseTree.listToList subtrees, ∃ b c, Ready s.cache h b c) ∧
      (RoseTree.listToList subtrees).Pairwise (Apart s.cache) ∧
      ∀ signal, callback = .ledgerCatchup signal → signal ∉ s.decrementSignals
  | .localBreadcrumb h => ∃ b, s.cache.handles[h]? = some (.pure (.breadcrumb b))
  | .partiallyValidTransition h => ∃ block x l, Gossiped s.cache h block x l

/-- The `Cached.t`s of a message. -/
def Message.blocks : Message → List Nat
  | .catchupBreadcrumbs subtrees _ => RoseTree.listToList subtrees
  | .localBreadcrumb h => [h]
  | .partiallyValidTransition h => [h]

/-- A `Cached.t` of the registration was handed to `add_and_finalize`. -/
def Handed (s : State F Bc Fr) (l : Nat) : Prop := ∃ k ∈ s.handed, ∃ y, Of s.cache k y l

/-- The registration was finalised once, as its handling says. -/
structure Finalised (s s' : State F Bc Fr) (x : F) (l : Nat) : Prop where
  once : fills s'.cache l = fills s.cache l + 1
  success : Handed s' l → s'.cache.finalStates[l]? = some (some (.success x))
  failure : ¬ Handed s' l → s'.cache.finalStates[l]? = some (some .failed)

/-- The gossiped block was given to `watch` and is not finalised. -/
structure Passed (s s' : State F Bc Fr) (h l : Nat) : Prop where
  watched : s'.watched = [h]
  none : fills s'.cache l = fills s.cache l
  empty : s'.cache.finalStates[l]? = some .none

/-- The block of the message is a gossiped one whose parent is missing. -/
def ParentMissing (s : State F Bc Fr) (message : Message) : Prop :=
  ∃ h block x l, message = .partiallyValidTransition h ∧ Gossiped s.cache h block x l ∧
    validateFrontierDependencies env s.frontier block = .error .parentMissingFromFrontier

structure Settled (s s' : State F Bc Fr) (message : Message) : Prop where
  finalised : ¬ ParentMissing env s message → ∀ h ∈ message.blocks, ∀ x l, Of s.cache h x l → Finalised s s' x l
  passed : ParentMissing env s message → ∀ h ∈ message.blocks, ∀ x l, Of s.cache h x l → Passed s s' h l
  signal : ∀ subtrees signal, message = .catchupBreadcrumbs subtrees (.ledgerCatchup signal) →
    s'.decrementSignals = signal :: s.decrementSignals

/-! ## When a message is settled -/

/-- The siblings that are peeked at are not finalised. -/
def Peekable (cache : CacheLib.T F (Value F Bc)) (cachedOf : F → Nat) (hash : F) : List (Transition F) → Prop
  | [] => True
  | sibling :: siblings => (CacheLib.peek cache (cachedOf sibling.stateHash)).isOk = true ∧
      (hash = sibling.stateHash ∨ Peekable cache cachedOf hash siblings)

def Accepts (s : State F Bc Fr) : Message → Prop
  | .catchupBreadcrumbs subtrees _ =>
    Accepted env s.cache s.frontier s.catchupScheduler (RoseTree.listToList subtrees)
  | .localBreadcrumb h => ∃ b frontier, s.cache.handles[h]? = some (.pure (.breadcrumb b)) ∧
      env.addBreadcrumbExn s.frontier b = .ok frontier ∧
      (env.notify s.catchupScheduler (env.validatedTransition b).stateHash).1 = .ok ()
  | .partiallyValidTransition h => ∀ block x l, Gossiped s.cache h block x l →
      (validateFrontierDependencies env s.frontier block = .error .parentMissingFromFrontier →
        ∀ siblings, s.catchupScheduler.collectedTransitions.lookup block.transition.parentHash = some siblings →
          Peekable s.cache s.cachedOf block.transition.stateHash siblings) ∧
      (validateFrontierDependencies env s.frontier block = .ok () → ∀ parent b,
        env.find s.frontier block.transition.parentHash = some parent → env.build s.frontier block parent = .ok b →
          (env.addBreadcrumbExn s.frontier b).isOk = true)

/-! ## Gossiped blocks -/

theorem watch_ok (t : T F) (now timeoutDuration : UInt64) (transition : Transition F) :
    ∃ t', watch t now timeoutDuration transition = .ok t' := by
  unfold watch
  dsimp only
  split
  next hnone =>
    have hcollected : (cancelTimeout t now transition.stateHash).2.collectedTransitions = t.collectedTransitions := by
      unfold cancelTimeout
      split <;> rfl
    have hadd : addExn (cancelTimeout t now transition.stateHash).2.collectedTransitions transition.parentHash
        [transition] = .ok (t.collectedTransitions.insert transition.parentHash [transition]) := by
      rw [hcollected, addExn, hnone]
    exact ⟨_, by rw [hadd]; rfl⟩
  next siblings _ =>
    split
    next => exact ⟨t, rfl⟩
    next => exact ⟨_, rfl⟩

theorem existsSibling_isOk {cache : CacheLib.T F (Value F Bc)} {cachedOf : F → Nat} {hash : F}
    {siblings : List (Transition F)} :
    (existsSibling cache cachedOf hash siblings).isOk = true ↔ Peekable cache cachedOf hash siblings := by
  induction siblings with
  | nil => simp [existsSibling, Peekable, Except.isOk, Except.toBool]
  | cons sibling siblings ih =>
    rw [existsSibling, Peekable]
    cases CacheLib.peek cache (cachedOf sibling.stateHash) with
    | error e => simp [Except.isOk, Except.toBool]
    | ok value =>
      rw [Exn.andThen_ok]
      by_cases hhash : hash = sibling.stateHash
      · simp [hhash, Except.isOk, Except.toBool]
      · rw [if_neg hhash, ih]
        simp [hhash, Except.isOk, Except.toBool]

/-- A block that is watched is left as it is. -/
theorem watchCached_ok {s s' : State F Bc Fr} {timeoutDuration : UInt64} {h : Nat}
    (hok : watchCached env s timeoutDuration h = .ok s') : s'.cache = s.cache ∧ s'.watched = h :: s.watched := by
  obtain ⟨value, -, hok⟩ := Exn.andThen_eq_ok.1 hok
  obtain ⟨block, -, hok⟩ := Exn.andThen_eq_ok.1 hok
  dsimp only at hok
  split at hok
  next =>
    obtain ⟨t, -, hok⟩ := Exn.andThen_eq_ok.1 hok
    cases hok
    exact ⟨rfl, rfl⟩
  next =>
    obtain ⟨found, -, hok⟩ := Exn.andThen_eq_ok.1 hok
    split at hok
    next =>
      cases hok
      exact ⟨rfl, rfl⟩
    next =>
      obtain ⟨t, -, hok⟩ := Exn.andThen_eq_ok.1 hok
      cases hok
      exact ⟨rfl, rfl⟩

/-- Nothing is raised if the siblings can be peeked at. -/
theorem watchCached_iff {s : State F Bc Fr} {timeoutDuration : UInt64} {h : Nat} {block : Block F} {x : F} {l : Nat}
    (hgossip : Gossiped s.cache h block x l) :
    (∃ s', watchCached env s timeoutDuration h = .ok s') ↔
      ∀ siblings, s.catchupScheduler.collectedTransitions.lookup block.transition.parentHash = some siblings →
        Peekable s.cache s.cachedOf block.transition.stateHash siblings := by
  obtain ⟨⟨c, hc, hreg, -, hvalue⟩, hempty⟩ := hgossip
  have hpeek : CacheLib.peek s.cache h = .ok (.inr (.transition block)) := by
    rw [← hvalue]
    exact peek_of hc hreg (isFull_of_empty hempty)
  obtain ⟨t', ht'⟩ := watch_ok s.catchupScheduler env.now timeoutDuration block.transition
  simp only [watchCached, hpeek, Exn.andThen_ok, Value.asTransition]
  cases hlookup : s.catchupScheduler.collectedTransitions.lookup block.transition.parentHash with
  | none =>
    simp only [ht', Exn.andThen_ok]
    exact ⟨fun _ siblings hs => (by cases hs), fun _ => ⟨_, rfl⟩⟩
  | some siblings =>
    dsimp only
    cases hexists : existsSibling s.cache s.cachedOf block.transition.stateHash siblings with
    | error e =>
      constructor
      · intro ⟨_, herror⟩
        cases herror
      · intro hpeekable
        have hok := existsSibling_isOk.2 (hpeekable siblings rfl)
        rw [hexists] at hok
        cases hok
    | ok found =>
      have hpeekable : Peekable s.cache s.cachedOf block.transition.stateHash siblings := by
        rw [← existsSibling_isOk, hexists]
        rfl
      refine ⟨fun _ siblings' hs => Option.some.inj hs ▸ hpeekable, fun _ => ?_⟩
      rw [Exn.andThen_ok]
      split
      next => exact ⟨_, rfl⟩
      next =>
        rw [ht']
        exact ⟨_, rfl⟩

omit [DecidableEq F] in
/-- The outcome of building a breadcrumb is held for the block's
registration. -/
theorem deferred_of {t : CacheLib.T F (Value F Bc)} {h : Nat} {block : Block F} {x : F} {l : Nat}
    (hgossip : Gossiped t h block x l) (result : Except BuildError Bc) :
    ∃ r₁ r₂, CacheLib.transform t h (fun _ => Value.deferred result) = .ok r₁ ∧
      CacheLib.sequenceDeferred r₁.2 r₁.1 Value.determined = .ok r₂ ∧
      r₂.2.handles[r₂.1]? = some (.derivative x (.result result) false l) ∧
      r₂.2.finalStates = t.finalStates ∧ r₂.2.events = t.events := by
  obtain ⟨⟨c, hc, hreg, hflag, -⟩, hempty⟩ := hgossip
  have hfull := isFull_of_empty hempty
  obtain ⟨t₁, h₁, hc₁, hstates₁, hevents₁⟩ := transform_of hc hreg hflag hfull fun _ => Value.deferred result
  have hfull₁ : isFull t₁ l = false := isFull_of_empty (hstates₁ ▸ hempty)
  obtain ⟨t₂, h₂, hc₂, hstates₂, hevents₂⟩ := transform_of hc₁ rfl rfl hfull₁ fun _ => Value.result result
  refine ⟨(_, t₁), (_, t₂), h₁, ?_, hc₂, hstates₂.trans hstates₁, hevents₂.trans hevents₁⟩
  rw [CacheLib.sequenceDeferred, peek_of hc₁ rfl hfull₁, Exn.andThen_ok]
  exact h₂

/-- A breadcrumb is built from a gossiped block. -/
theorem buildBreadcrumb_ok {s : State F Bc Fr} {h : Nat} {block : Block F} {x : F} {l : Nat}
    (hgossip : Gossiped s.cache h block x l) (b : Bc) :
    ∃ k cache, buildBreadcrumb s h (.ok b) = .ok (.ok k, { s with cache }) ∧
      Ready cache k b (.derivative x (.breadcrumb b) false l) ∧
      cache.finalStates = s.cache.finalStates ∧ cache.events = s.cache.events := by
  obtain ⟨r₁, r₂, h₁, h₂, hc, hstates, hevents⟩ := deferred_of hgossip (.ok b)
  have hempty : r₂.2.finalStates[l]? = some none := hstates ▸ hgossip.empty
  have hfull := isFull_of_empty hempty
  obtain ⟨t₃, h₃, hc₃, hstates₃, hevents₃⟩ := transform_of hc rfl rfl hfull fun _ => Value.breadcrumb b
  refine ⟨_, t₃, ?_, ⟨hc₃, rfl, ?_⟩, hstates₃.trans hstates, hevents₃.trans hevents⟩
  · have hresult : CacheLib.sequenceResult r₂.2 r₂.1 Value.asResult = .ok (.ok r₂.2.handles.length, t₃) := by
      rw [CacheLib.sequenceResult, peek_of hc rfl hfull, Exn.andThen_ok]
      change ((CacheLib.transform r₂.2 r₂.1 fun _ => Value.breadcrumb b).andThen _) = _
      rw [h₃]
      rfl
    rw [buildBreadcrumb, h₁, Exn.andThen_ok, h₂, Exn.andThen_ok, hresult]
    rfl
  · intro y m hreg
    cases hreg
    rw [hstates₃]
    exact hempty

/-- No breadcrumb can be built: the block is finalised as a failure. -/
theorem buildBreadcrumb_error {s : State F Bc Fr} {h : Nat} {block : Block F} {x : F} {l : Nat}
    (hgossip : Gossiped s.cache h block x l) {e : BuildError} (hfatal : ∀ exn, e ≠ .fatalError exn) :
    ∃ cache, buildBreadcrumb s h (.error e) = .ok (.error (), { s with cache := finalised cache .failed .failure x l }) ∧
      cache.finalStates = s.cache.finalStates ∧ cache.events = s.cache.events := by
  obtain ⟨r₁, r₂, h₁, h₂, hc, hstates, hevents⟩ := deferred_of hgossip (.error e)
  have hempty : r₂.2.finalStates[l]? = some none := hstates ▸ hgossip.empty
  refine ⟨r₂.2, ?_, hstates, hevents⟩
  have hresult : CacheLib.sequenceResult r₂.2 r₂.1 Value.asResult =
      .ok (.error e, finalised r₂.2 .failed .failure x l) := by
    rw [CacheLib.sequenceResult, peek_of hc rfl (isFull_of_empty hempty), Exn.andThen_ok]
    change ((CacheLib.invalidate (CacheLib.mark fun _ => .failed) .failure r₂.2 r₂.1).andThen _) = _
    rw [invalidate_of hc rfl hempty]
    rfl
  rw [buildBreadcrumb, h₁, Exn.andThen_ok, h₂, Exn.andThen_ok, hresult]
  cases e with
  | invalidStagedLedgerHash _ => rfl
  | invalidStagedLedgerDiff _ => rfl
  | fatalError exn => exact absurd rfl (hfatal exn)

/-! ## Every message -/

theorem settles_catchup {s : State F Bc Fr} {subtrees : List (RoseTree Nat)} {callback : Callback}
    (hwell : WellFormed s (.catchupBreadcrumbs subtrees callback)) :
    (∃ s', handleMessage env s (.catchupBreadcrumbs subtrees callback) = .ok s' ∧
      Settled env s s' (.catchupBreadcrumbs subtrees callback)) ↔
      Accepts env s (.catchupBreadcrumbs subtrees callback) := by
  obtain ⟨hready, hapart, hsignal⟩ := hwell
  set s₀ : State F Bc Fr := { s with handed := [], watched := [] } with hs₀
  have hnot : ¬ ParentMissing env s (.catchupBreadcrumbs subtrees callback) := by
    intro ⟨h, block, x, l, heq, _⟩
    cases heq
  by_cases hok : Accepts env s (.catchupBreadcrumbs subtrees callback)
  · refine iff_of_true ?_ hok
    obtain ⟨s', hiter, hhandles, hsignals, hhanded, -, hsucceeded⟩ := iterList_accepted env (s := s₀) hready hapart hok
    have hfill : ∃ s'', fillSignal s' callback = .ok s'' ∧ s''.cache = s'.cache ∧ s''.handed = s'.handed ∧
        ∀ signal, callback = .ledgerCatchup signal → s''.decrementSignals = signal :: s.decrementSignals := by
      cases callback with
      | ledgerCatchup signal =>
        refine ⟨{ s' with decrementSignals := signal :: s'.decrementSignals }, ?_, rfl, rfl, ?_⟩
        · rw [fillSignal, hsignals, if_neg (hsignal signal rfl)]
        · intro signal' heq
          cases heq
          exact congrArg (signal :: ·) hsignals
      | catchupScheduler => exact ⟨s', rfl, rfl, rfl, fun signal heq => (by cases heq)⟩
    obtain ⟨s'', hs'', hcache, hhanded', hsignal'⟩ := hfill
    refine ⟨s'', ?_, ⟨fun _ h hmem x l hof => ?_, fun hmissing => absurd hmissing hnot, ?_⟩⟩
    · rw [handleMessage, iterTrees_eq, hiter]
      exact hs''
    · have hdone := hsucceeded h hmem x l hof
      have hhand : Handed s'' l := by
        refine ⟨h, ?_, x, ?_⟩
        · rw [hhanded', hhanded]
          exact Or.inl hmem
        · rw [hcache]
          exact (of_congr hhandles).2 hof
      refine ⟨?_, fun _ => ?_, fun hno => absurd hhand hno⟩
      · rw [hcache]
        exact hdone.once
      · rw [hcache]
        exact hdone.success
    · intro subtrees' signal heq
      cases heq
      exact hsignal' signal rfl
  · refine iff_of_false ?_ hok
    intro ⟨s', hs', _⟩
    rw [handleMessage, iterTrees_eq] at hs'
    rcases iterList_rejected env (s := s₀) hready hapart hok with ⟨e, he⟩ | ⟨e, s₁, he, ⟨h, hs, heq, hspent⟩, -⟩
    · rw [he] at hs'
      cases hs'
    · obtain ⟨e', he'⟩ := hspent.invalidate
      rw [he, Exn.andThen_ok] at hs'
      dsimp only at hs'
      rw [iterTrees_eq, heq, iterList, invalidateBreadcrumb, he'] at hs'
      cases hs'

theorem settles_local {s : State F Bc Fr} {h : Nat} (hwell : WellFormed s (.localBreadcrumb h)) :
    (∃ s', handleMessage env s (.localBreadcrumb h) = .ok s' ∧ Settled env s s' (.localBreadcrumb h)) ↔
      Accepts env s (.localBreadcrumb h) := by
  obtain ⟨b, hc⟩ := hwell
  set s₀ : State F Bc Fr := { s with handed := [], watched := [] } with hs₀
  have hready : Ready s₀.cache h b (.pure (.breadcrumb b)) := ⟨hc, rfl, fun x l hreg => (by cases hreg)⟩
  have hcache : handOn s₀.cache h = s.cache := handOn_pure hc rfl
  have hnone : ∀ x l, ¬ Of s.cache h x l := by
    intro x l ⟨c, hc', hreg⟩
    cases hc.symm.trans hc'
    cases hreg
  have hsettled : ∀ s', Settled env s s' (.localBreadcrumb h) := by
    intro s'
    refine ⟨fun _ k hk x l hof => ?_, fun hmissing => ?_, fun _ _ heq => (by cases heq)⟩
    · cases List.mem_singleton.1 hk
      exact absurd hof (hnone x l)
    · obtain ⟨k, block, x, l, heq, -⟩ := hmissing
      cases heq
  have haccepts : Accepts env s (.localBreadcrumb h) ↔ ∃ frontier, env.addBreadcrumbExn s.frontier b = .ok frontier ∧
      (env.notify s.catchupScheduler (env.validatedTransition b).stateHash).1 = .ok () := by
    constructor
    · intro ⟨b', frontier, hc', hrest⟩
      cases hc.symm.trans hc'
      exact ⟨frontier, hrest⟩
    · intro ⟨frontier, hrest⟩
      exact ⟨b, frontier, hc, hrest⟩
  rw [haccepts]
  have hpure : CacheLib.invalidateWithFailure (handOn s₀.cache h) h =
      .error "cannot set consumed state of pure Cached.t" := by
    rw [hcache]
    exact CacheLib.invalidate_pure hc
  rw [handleMessage, peek_pure hc, Exn.andThen_ok, addAndFinalize_eq env hready, attach, if_neg Bool.false_ne_true]
  cases env.addBreadcrumbExn s.frontier b with
  | error e =>
    constructor
    · intro h
      obtain ⟨s', h, -⟩ := h
      cases h
    · intro h
      obtain ⟨frontier, h, -⟩ := h
      cases h
  | ok frontier =>
    dsimp only [Exn.andThen_ok]
    cases (env.notify s.catchupScheduler (env.validatedTransition b).stateHash).1 with
    | ok u => exact iff_of_true ⟨_, rfl, hsettled _⟩ ⟨frontier, rfl, rfl⟩
    | error e =>
      constructor
      · intro h
        obtain ⟨s', hs', -⟩ := h
        change ((CacheLib.invalidateWithFailure (handOn s₀.cache h) h).andThen _) = _ at hs'
        rw [hpure] at hs'
        cases hs'
      · intro h
        obtain ⟨frontier', -, h⟩ := h
        cases h

theorem fills_congr {A B : Type} {t t' : CacheLib.T A B} (heq : t'.events = t.events) (l : Nat) :
    fills t' l = fills t l := by
  rw [fills, heq, ← fills]

omit [DecidableEq F] in
theorem Gossiped.unique {t : CacheLib.T F (Value F Bc)} {h : Nat} {block block' : Block F} {x x' : F} {l l' : Nat}
    (hg : Gossiped t h block x l) (hg' : Gossiped t h block' x' l') : block = block' ∧ x = x' ∧ l = l' := by
  obtain ⟨⟨c, hc, hreg, -, hvalue⟩, -⟩ := hg
  obtain ⟨⟨c', hc', hreg', -, hvalue'⟩, -⟩ := hg'
  cases hc.symm.trans hc'
  cases hreg.symm.trans hreg'
  cases hvalue.symm.trans hvalue'
  exact ⟨rfl, rfl, rfl⟩

omit [DecidableEq F] in
theorem Gossiped.of_eq {t : CacheLib.T F (Value F Bc)} {h : Nat} {block : Block F} {x y : F} {l m : Nat}
    (hg : Gossiped t h block x l) (hof : Of t h y m) : y = x ∧ m = l := by
  obtain ⟨⟨c, hc, hreg, -, -⟩, -⟩ := hg
  obtain ⟨c', hc', hreg'⟩ := hof
  cases hc.symm.trans hc'
  cases hreg.symm.trans hreg'
  exact ⟨rfl, rfl⟩

omit [DecidableEq F] in
/-- A gossiped block that does not wait for its parent is settled by
finalising it. -/
theorem settled_gossip {s s' : State F Bc Fr} {h : Nat} {block : Block F} {x : F} {l : Nat}
    (hgossip : Gossiped s.cache h block x l)
    (hvalid : validateFrontierDependencies env s.frontier block ≠ .error .parentMissingFromFrontier)
    (hfinal : Finalised s s' x l) : Settled env s s' (.partiallyValidTransition h) := by
  refine ⟨fun _ k hk y m hof => ?_, fun hmissing => ?_, fun _ _ heq => (by cases heq)⟩
  · cases List.mem_singleton.1 hk
    obtain ⟨rfl, rfl⟩ := hgossip.of_eq hof
    exact hfinal
  · obtain ⟨k, block', x', l', heq, hgossip', hmissing⟩ := hmissing
    cases heq
    obtain ⟨rfl, -, -⟩ := hgossip.unique hgossip'
    exact absurd hmissing hvalid

/-- A block that is finalised as a failure was not handed on. -/
theorem finalised_failure {s s' : State F Bc Fr} {cache : CacheLib.T F (Value F Bc)} {x : F} {l : Nat}
    (hempty : s.cache.finalStates[l]? = some none) (hstates : cache.finalStates = s.cache.finalStates)
    (hevents : cache.events = s.cache.events) (hcache : s'.cache = finalised cache .failed .failure x l)
    (hhanded : s'.handed = []) : Finalised s s' x l := by
  refine ⟨?_, fun hhand => ?_, fun _ => ?_⟩
  · rw [hcache, fills_finalised, if_pos rfl, fills_congr hevents]
  · obtain ⟨k, hk, -⟩ := hhand
    rw [hhanded] at hk
    cases hk
  · rw [hcache, finalStates_finalised, if_pos rfl, hstates, hempty]
    rfl

omit [DecidableEq F] in
/-- A valid block has its parent in the frontier. -/
theorem parent_of_valid {frontier : Fr} {block : Block F}
    (h : validateFrontierDependencies env frontier block = .ok ()) :
    env.find frontier block.transition.parentHash ≠ none := by
  unfold validateFrontierDependencies at h
  split at h
  next => cases h
  next =>
    split at h
    next => cases h
    next =>
      split at h
      next => cases h
      next hsome => exact fun hnone => hsome (hnone ▸ rfl)

theorem settles_gossip {s : State F Bc Fr} {h : Nat} (hwell : WellFormed s (.partiallyValidTransition h))
    (hfatal : ∀ block parent exn, env.build s.frontier block parent ≠ .error (.fatalError exn)) :
    (∃ s', handleMessage env s (.partiallyValidTransition h) = .ok s' ∧
      Settled env s s' (.partiallyValidTransition h)) ↔ Accepts env s (.partiallyValidTransition h) := by
  obtain ⟨block, x, l, hgossip⟩ := hwell
  obtain ⟨c, hc, hreg, hflag, hvalue⟩ := hgossip.cached
  set s₀ : State F Bc Fr := { s with handed := [], watched := [] } with hs₀
  have hgossip₀ : Gossiped s₀.cache h block x l := hgossip
  have hpeek : CacheLib.peek s₀.cache h = .ok (.inr (.transition block)) := by
    rw [← hvalue]
    exact peek_of hc hreg (isFull_of_empty hgossip.empty)
  have haccepts : Accepts env s (.partiallyValidTransition h) ↔
      (validateFrontierDependencies env s.frontier block = .error .parentMissingFromFrontier →
        ∀ siblings, s.catchupScheduler.collectedTransitions.lookup block.transition.parentHash = some siblings →
          Peekable s.cache s.cachedOf block.transition.stateHash siblings) ∧
      (validateFrontierDependencies env s.frontier block = .ok () → ∀ parent b,
        env.find s.frontier block.transition.parentHash = some parent → env.build s.frontier block parent = .ok b →
          (env.addBreadcrumbExn s.frontier b).isOk = true) := by
    refine ⟨fun hacc => hacc block x l hgossip, fun hacc block' x' l' hgossip' => ?_⟩
    obtain ⟨rfl, -, -⟩ := hgossip.unique hgossip'
    exact hacc
  have hhandle : handleMessage env s (.partiallyValidTransition h) = processTransition env s₀ h := rfl
  rw [haccepts, hhandle, processTransition, hpeek, Exn.andThen_ok, Value.asTransition, Exn.andThen_ok]
  have hinvalid : CacheLib.invalidateWithFailure s₀.cache h = .ok (c.value, finalised s.cache .failed .failure x l) :=
    invalidate_of hc hreg hgossip.empty (fun _ => FinalState.failed) .failure
  cases hvalid : validateFrontierDependencies env s.frontier block with
  | error e =>
    cases e with
    | notSelectedOverFrontierRoot =>
      refine iff_of_true ?_ ⟨fun h => (by cases h), fun h => (by cases h)⟩
      refine ⟨_, congrArg (fun r => Exn.andThen r _) hinvalid, settled_gossip env hgossip ?_ ?_⟩
      · rw [hvalid]
        decide
      · exact finalised_failure hgossip.empty rfl rfl rfl rfl
    | alreadyInFrontier =>
      refine iff_of_true ?_ ⟨fun h => (by cases h), fun h => (by cases h)⟩
      refine ⟨_, congrArg (fun r => Exn.andThen r _) hinvalid, settled_gossip env hgossip ?_ ?_⟩
      · rw [hvalid]
        decide
      · exact finalised_failure hgossip.empty rfl rfl rfl rfl
    | parentMissingFromFrontier =>
      rw [and_iff_left (fun h => (by cases h)), forall_prop_of_true rfl, ← watchCached_iff env hgossip₀]
      refine exists_congr fun s' => and_iff_left_of_imp fun hok => ?_
      obtain ⟨hcache, hwatched⟩ := watchCached_ok env hok
      have hmissing : ParentMissing env s (.partiallyValidTransition h) := ⟨h, block, x, l, rfl, hgossip, hvalid⟩
      refine ⟨fun hno => absurd hmissing hno, fun _ k hk y m hof => ?_, fun _ _ heq => (by cases heq)⟩
      cases List.mem_singleton.1 hk
      obtain ⟨rfl, rfl⟩ := hgossip.of_eq hof
      exact ⟨hwatched, by rw [hcache], by rw [hcache]; exact hgossip.empty⟩
  | ok u =>
    rw [and_iff_right fun h => (by cases h), forall_prop_of_true (by rfl)]
    have hmissing : validateFrontierDependencies env s.frontier block ≠ .error .parentMissingFromFrontier := by
      rw [hvalid]
      intro heq
      cases heq
    cases hparent : env.find s.frontier block.transition.parentHash with
    | none => exact absurd hparent (parent_of_valid env hvalid)
    | some parent =>
      dsimp only
      cases hbuild : env.build s.frontier block parent with
      | error e =>
        obtain ⟨cache, hbuilt, hstates, hevents⟩ := buildBreadcrumb_error hgossip₀ fun exn heq =>
          hfatal block parent exn (heq ▸ hbuild)
        refine iff_of_true ⟨_, congrArg (fun r => Exn.andThen r _) hbuilt, settled_gossip env hgossip hmissing ?_⟩ ?_
        · exact finalised_failure hgossip.empty hstates hevents rfl rfl
        · intro parent' b hp hb
          cases hp
          cases hbuild.symm.trans hb
      | ok b =>
        obtain ⟨k, cache, hbuilt, hready, hstates, hevents⟩ := buildBreadcrumb_ok hgossip₀ b
        rw [hbuilt, Exn.andThen_ok]
        dsimp only
        rw [addAndFinalize_eq env (s := { s₀ with cache }) hready, attach, if_neg Bool.false_ne_true]
        cases hadd : env.addBreadcrumbExn s.frontier b with
        | error e =>
          constructor
          · intro h
            obtain ⟨s', h, -⟩ := h
            cases h
          · intro hacc
            have hok := hacc parent b rfl hbuild
            rw [hadd] at hok
            cases hok
        | ok frontier =>
          refine iff_of_true ⟨_, rfl, settled_gossip env hgossip hmissing ?_⟩ ?_
          · have hcache : handOn cache k = finalised cache (.success x) .consumed x l := handOn_of hready.cached rfl
            have hhanded : Handed (attached env { s₀ with cache } .gossip k b frontier) l := by
              refine ⟨k, List.mem_cons_self, x, ?_⟩
              exact (of_congr (handOn_handles cache k)).2 ⟨_, hready.cached, rfl⟩
            refine ⟨?_, fun _ => ?_, fun hno => absurd hhanded hno⟩
            · change fills (handOn cache k) l = _
              rw [hcache, fills_finalised, if_pos rfl, fills_congr hevents]
            · change (handOn cache k).finalStates[l]? = _
              rw [hcache, finalStates_finalised, if_pos rfl, hstates]
              exact congrArg (Option.map _) hgossip.empty
          · intro parent' b' hp hb
            cases hp
            cases hbuild.symm.trans hb
            rw [hadd]
            rfl

/-! ## Main results -/

/-- **The processor settles a message exactly if it accepts it**: if
`add_breadcrumb_exn` raises for no breadcrumb that it is given, `notify`
answers `Ok` for those of catchup and of this node, and no sibling that
`watch` peeks at is finalised. -/
theorem settles_iff {s : State F Bc Fr} {message : Message} (hwell : WellFormed s message)
    (hfatal : ∀ block parent exn, env.build s.frontier block parent ≠ .error (.fatalError exn)) :
    (∃ s', handleMessage env s message = .ok s' ∧ Settled env s s' message) ↔ Accepts env s message := by
  cases message with
  | catchupBreadcrumbs subtrees callback => exact settles_catchup env hwell
  | localBreadcrumb h => exact settles_local env hwell
  | partiallyValidTransition h => exact settles_gossip env hwell hfatal

section Example

/-- A frontier that takes every breadcrumb, with the answer of `notify`. -/
def answering (answer : OrErrorUnit) : Env Nat Nat Unit where
  now := 0
  catchupTimeoutDuration := 0
  find := fun _ hash => if hash = 0 then some 0 else none
  selected := fun _ _ => true
  addBreadcrumbExn := fun _ _ => .ok ()
  build := fun _ block _ => .ok block.transition.stateHash
  validatedTransition := fun b => ⟨b, 0⟩
  notify := fun t _ => (answer, t)

/-- The block `7` is registered, and a breadcrumb was built from it. -/
def oneBreadcrumb : State Nat Nat Unit where
  cache := CacheLib.step (E := Unit) (CacheLib.step (E := Unit) (CacheLib.create toString) (.registerExn 7))
    (.transform 0 fun _ => .breadcrumb 7)
  frontier := ()
  catchupScheduler := create
  cachedOf := fun _ => 0
  processedTransitions := []
  decrementSignals := []
  handed := []
  watched := []

theorem oneBreadcrumb_wellFormed :
    WellFormed oneBreadcrumb (.catchupBreadcrumbs [.node 1 []] (.ledgerCatchup 0)) := by
  have hlist : RoseTree.listToList [RoseTree.node 1 []] = [1] := by simp [RoseTree.listToList]
  refine ⟨?_, ?_, ?_⟩
  · rw [hlist]
    intro h hmem
    cases List.mem_singleton.1 hmem
    refine ⟨7, .derivative 7 (.breadcrumb 7) false 0, rfl, rfl, fun x l hreg => ?_⟩
    cases hreg
    rfl
  · rw [hlist]
    exact List.pairwise_singleton _ _
  · intro signal _
    exact List.not_mem_nil

theorem settles_iff_one :
    (∃ s', handleMessage (answering (.ok ())) oneBreadcrumb (.catchupBreadcrumbs [.node 1 []] (.ledgerCatchup 0)) = .ok s' ∧
      Settled (answering (.ok ())) oneBreadcrumb s' (.catchupBreadcrumbs [.node 1 []] (.ledgerCatchup 0))) ↔
      Accepts (answering (.ok ())) oneBreadcrumb (.catchupBreadcrumbs [.node 1 []] (.ledgerCatchup 0)) :=
  settles_iff (answering (.ok ())) oneBreadcrumb_wellFormed fun _ _ _ h => nomatch h

/-- **`notify` answers with an error** for the breadcrumb `7` of catchup,
which is finalised: it is invalidated again, and that raises. -/
theorem settles_not : ¬ ∀ message, WellFormed oneBreadcrumb message →
    ∃ s', handleMessage (answering (.error "notify")) oneBreadcrumb message = .ok s' ∧
      Settled (answering (.error "notify")) oneBreadcrumb s' message := by
  intro h
  obtain ⟨s', hs', -⟩ := h _ oneBreadcrumb_wellFormed
  rw [handleMessage, iterTrees_eq] at hs'
  cases hs'

end Example

end Mina.TransitionHandler.Processor
