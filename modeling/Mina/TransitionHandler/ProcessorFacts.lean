/-
What handling a message does with its `Cached.t`s.

A breadcrumb that is handed to `add_and_finalize` is invalidated with
success, unless its `Cached.t` is pure (`addAndFinalize_eq`); after that it
can be invalidated no more (`Spent`). So when `notify` answers with an error,
the branches that invalidate the breadcrumb again raise: the one of a local
breadcrumb, since it is pure, and the one of catchup, since it begins with a
breadcrumb that was handed on.
-/
import Mina.CacheLib.CacheRuns
import Mina.TransitionHandler.Processor

namespace Mina.TransitionHandler.Processor

open CacheLib (Cached FinalState Of finalised isFull)

/-! ## Loops -/

section Loops

variable {σ ι : Type} (f : σ → ι → Exn (OrErrorUnit × σ))

/-- `Deferred.Or_error.List.iter`. -/
def iterList (s : σ) : List ι → Exn (OrErrorUnit × σ)
  | [] => .ok (.ok (), s)
  | a :: l => (f s a).andThen fun r =>
    match r.1 with
    | .error e => .ok (.error e, r.2)
    | .ok () => iterList r.2 l

theorem iterList_append (s : σ) (l l' : List ι) :
    iterList f s (l ++ l') = (iterList f s l).andThen fun r =>
      match r.1 with
      | .error e => .ok (.error e, r.2)
      | .ok () => iterList f r.2 l' := by
  induction l generalizing s with
  | nil => rfl
  | cons a l ih =>
    rw [List.cons_append, iterList, iterList]
    cases f s a with
    | error e => rfl
    | ok r =>
      obtain ⟨answer, s'⟩ := r
      cases answer with
      | error e => rfl
      | ok u => exact ih s'

mutual

/-- The blocks of a tree are visited in the order of its list. -/
theorem iterTree_eq (s : σ) : ∀ tree : RoseTree ι, iterTree f s tree = iterList f s tree.toList
  | .node base successors => by
    rw [iterTree, RoseTree.toList_node, iterList]
    cases f s base with
    | error e => rfl
    | ok r =>
      obtain ⟨answer, s'⟩ := r
      cases answer with
      | error e => rfl
      | ok u => exact iterTrees_eq s' successors

theorem iterTrees_eq (s : σ) : ∀ trees : List (RoseTree ι), iterTrees f s trees = iterList f s (RoseTree.listToList trees)
  | [] => by rw [iterTrees, RoseTree.listToList, iterList]
  | tree :: trees => by
    rw [iterTrees, RoseTree.listToList_cons, iterList_append, iterTree_eq s tree]
    cases iterList f s tree.toList with
    | error e => rfl
    | ok r =>
      obtain ⟨answer, s'⟩ := r
      cases answer with
      | error e => rfl
      | ok u => exact iterTrees_eq s' trees

end

end Loops

/-! ## `Cached.t`s -/

section Caches

variable {A B : Type} [DecidableEq A] {t : CacheLib.T A B} {h : Nat} {c : Cached A B} {x : A} {l : Nat}

omit [DecidableEq A] in
theorem isFull_of_empty (hempty : t.finalStates[l]? = some none) : isFull t l = false := by
  rw [isFull, hempty]
  rfl

omit [DecidableEq A] in
theorem isPure_iff : c.isPure = true ↔ c.registration = none := by
  cases c <;> simp [Cached.isPure, Cached.registration]

theorem invalidate_of (hc : t.handles[h]? = some c) (hreg : c.registration = some (x, l))
    (hempty : t.finalStates[l]? = some none) (value : A → FinalState A) (reason : CacheLib.Reason) :
    CacheLib.invalidate (CacheLib.mark value) reason t h = .ok (c.value, finalised t (value x) reason x l) := by
  have hfull := isFull_of_empty hempty
  rw [CacheLib.invalidate, CacheLib.find_ok.2 hc, Exn.andThen_ok,
    (CacheLib.assertNotFinalized_ok (u := ()) hreg).2 hfull, Exn.andThen_ok, CacheLib.mark_eq hreg,
    CacheLib.fill_ok.2 ⟨hfull, rfl⟩, Exn.andThen_ok, CacheLib.original_eq hreg, Exn.andThen_ok,
    CacheLib.finalState_eq hreg, Exn.andThen_ok]
  rfl

omit [DecidableEq A] in
theorem peek_of (hc : t.handles[h]? = some c) (hreg : c.registration = some (x, l)) (hfull : isFull t l = false) :
    CacheLib.peek t h = .ok c.value := by
  rw [CacheLib.peek, CacheLib.find_ok.2 hc, Exn.andThen_ok, (CacheLib.assertNotFinalized_ok (u := ()) hreg).2 hfull]
  rfl

omit [DecidableEq A] in
theorem peek_pure {v : B} (hc : t.handles[h]? = some (.pure v)) : CacheLib.peek t h = .ok (.inr v) := by
  rw [CacheLib.peek, CacheLib.find_ok.2 hc]
  rfl

omit [DecidableEq A] in
/-- A `Cached.t` that is not consumed is transformed into a new one of its
registration. -/
theorem transform_of (hc : t.handles[h]? = some c) (hreg : c.registration = some (x, l))
    (hflag : c.transformed = false) (hfull : isFull t l = false) (f : A ⊕ B → B) :
    ∃ t', CacheLib.transform t h f = .ok (t.handles.length, t') ∧
      t'.handles[t.handles.length]? = some (.derivative x (f c.value) false l) ∧
      t'.finalStates = t.finalStates ∧ t'.events = t.events := by
  obtain ⟨c', hmark, hreg', -⟩ := CacheLib.markTransformed_eq hreg
  have htransformed : CacheLib.transformed t h = .ok (c, { t with handles := t.handles.set h c' }) := by
    rw [CacheLib.transformed, CacheLib.find_ok.2 hc, Exn.andThen_ok,
      (CacheLib.assertNotConsumed_ok (u := ()) hreg).2 ⟨hfull, hflag⟩, Exn.andThen_ok, hmark]
    rfl
  refine ⟨{ t with handles := t.handles.set h c' ++ [.derivative x (f c.value) false l] }, ?_, ?_, rfl, rfl⟩
  · rw [CacheLib.transform, htransformed, Exn.andThen_ok, CacheLib.original_eq hreg, Exn.andThen_ok,
      CacheLib.finalState_eq hreg]
    rfl
  · have hlen : t.handles.length = (t.handles.set h c').length := List.length_set.symm
    rw [hlen]
    exact List.getElem?_concat_length

omit [DecidableEq A] in
/-- A `Cached.t` that can be invalidated no more. -/
def Spent (t : CacheLib.T A B) (h : Nat) : Prop :=
  ∃ c, t.handles[h]? = some c ∧ ∀ x l, c.registration = some (x, l) → isFull t l = true

theorem Spent.invalidate (hs : Spent t h) : ∃ e, CacheLib.invalidateWithFailure t h = .error e := by
  obtain ⟨c, hc, hfull⟩ := hs
  by_cases hreg : c.registration = none
  · cases c with
    | base data transformed l => cases hreg
    | derivative original mutant transformed l => cases hreg
    | pure v => exact ⟨_, CacheLib.invalidate_pure hc⟩
  · obtain ⟨⟨x, l⟩, hreg⟩ := Option.ne_none_iff_exists'.1 hreg
    refine ⟨"Cached item has already been finalized" ++ ": " ++ t.elementToString x, ?_⟩
    have hassert : CacheLib.assertNotFinalized t c "Cached item has already been finalized" =
        .error ("Cached item has already been finalized" ++ ": " ++ t.elementToString x) := by
      rw [CacheLib.assertNotFinalized, CacheLib.wasFinalized_eq hreg, hfull x l hreg, CacheLib.original_eq hreg]
      rfl
    rw [CacheLib.invalidateWithFailure, CacheLib.invalidate, CacheLib.find_ok.2 hc, Exn.andThen_ok, hassert]
    rfl

/-- The cache after a breadcrumb was handed to `add_and_finalize`. -/
def handOn (t : CacheLib.T A B) (h : Nat) : CacheLib.T A B :=
  match t.handles[h]?.bind Cached.registration with
  | some (x, l) => finalised t (.success x) .consumed x l
  | none => t

theorem handOn_of (hc : t.handles[h]? = some c) (hreg : c.registration = some (x, l)) :
    handOn t h = finalised t (.success x) .consumed x l := by
  rw [handOn, hc, Option.bind_some, hreg]

theorem handOn_pure (hc : t.handles[h]? = some c) (hreg : c.registration = none) : handOn t h = t := by
  rw [handOn, hc, Option.bind_some, hreg]

theorem handOn_handles (t : CacheLib.T A B) (h : Nat) : (handOn t h).handles = t.handles := by
  unfold handOn
  split <;> rfl

/-- How often the ivar of a registration was filled. -/
def fills (t : CacheLib.T A B) (l : Nat) : Nat := t.events.countP fun e => e.fills = some l

theorem fills_finalised (value : FinalState A) (reason : CacheLib.Reason) (x : A) (l m : Nat) :
    fills (finalised t value reason x l) m = fills t m + if m = l then 1 else 0 := by
  unfold fills finalised CacheLib.remove
  rw [List.countP_cons_of_neg (by simp [CacheLib.Event.fills]), List.countP_cons]
  simp [CacheLib.Event.fills, eq_comm]

theorem finalStates_finalised (value : FinalState A) (reason : CacheLib.Reason) (x : A) (l m : Nat) :
    (finalised t value reason x l).finalStates[m]? =
      if m = l then t.finalStates[l]?.map fun _ => some value else t.finalStates[m]? := by
  change (t.finalStates.set l (some value))[m]? = _
  rw [List.getElem?_set]
  by_cases hm : m = l
  · subst hm
    rw [if_pos rfl, if_pos rfl]
    by_cases hlt : m < t.finalStates.length
    · rw [if_pos hlt, List.getElem?_eq_getElem hlt]
      rfl
    · rw [if_neg hlt, List.getElem?_eq_none (Nat.not_lt.1 hlt)]
      rfl
  · rw [if_neg (Ne.symm hm), if_neg hm]

/-- Handing on a `Cached.t` of another registration changes nothing of this
one. -/
theorem handOn_frame {m : Nat} (hne : ∀ x, ¬ Of t h x m) :
    (handOn t h).finalStates[m]? = t.finalStates[m]? ∧ fills (handOn t h) m = fills t m := by
  unfold handOn
  split
  next x l heq =>
    have hm : m ≠ l := by
      rintro rfl
      obtain ⟨c, hc, hreg⟩ := Option.bind_eq_some_iff.1 heq
      exact hne x ⟨c, hc, hreg⟩
    rw [finalStates_finalised, fills_finalised, if_neg hm, if_neg hm]
    exact ⟨rfl, rfl⟩
  next => exact ⟨rfl, rfl⟩

end Caches

/-! ## `add_and_finalize` -/

variable {F Bc Fr : Type} [DecidableEq F] (env : Env F Bc Fr)

/-- A `Cached.t` of a breadcrumb that can be handed on: it is pure, or its
registration is not finalised. -/
structure Ready (t : CacheLib.T F (Value F Bc)) (h : Nat) (b : Bc) (c : Cached F (Value F Bc)) : Prop where
  cached : t.handles[h]? = some c
  value : c.value = .inr (.breadcrumb b)
  empty : ∀ x l, c.registration = some (x, l) → t.finalStates[l]? = some none

theorem finalizeBreadcrumb_eq {s : State F Bc Fr} {h : Nat} {b : Bc} {c : Cached F (Value F Bc)}
    (hready : Ready s.cache h b c) :
    finalizeBreadcrumb s h = .ok (b, { s with handed := h :: s.handed, cache := handOn s.cache h }) := by
  obtain ⟨hc, hvalue, hempty⟩ := hready
  rw [finalizeBreadcrumb, CacheLib.find_ok.2 hc, Exn.andThen_ok]
  split
  next hpure =>
    have hreg := isPure_iff.1 hpure
    rw [handOn_pure hc hreg]
    cases c with
    | base data transformed l => cases hreg
    | derivative original mutant transformed l => cases hreg
    | pure v =>
      rw [peek_pure hc]
      cases hvalue
      rfl
  next hpure =>
    obtain ⟨⟨x, l⟩, hreg⟩ := Option.ne_none_iff_exists'.1 fun hnone => hpure (isPure_iff.2 hnone)
    have hok : CacheLib.invalidateWithSuccess s.cache h = .ok (c.value, handOn s.cache h) := by
      rw [handOn_of hc hreg]
      exact invalidate_of hc hreg (hempty x l hreg) FinalState.success .consumed
    rw [hok, Exn.andThen_ok, hvalue]
    rfl

/-- The state after a breadcrumb was attached. -/
def attached (s : State F Bc Fr) (source : Source) (h : Nat) (b : Bc) (frontier : Fr) : State F Bc Fr :=
  { s with
    cache := handOn s.cache h
    frontier
    catchupScheduler := (env.notify s.catchupScheduler (env.validatedTransition b).stateHash).2
    processedTransitions := s.processedTransitions ++ [(env.validatedTransition b, source)]
    handed := h :: s.handed }

theorem addAndFinalize_eq {s : State F Bc Fr} {h : Nat} {b : Bc} {c : Cached F (Value F Bc)}
    (hready : Ready s.cache h b c) (onlyIfPresent : Bool) (source : Source) :
    addAndFinalize env onlyIfPresent source s h =
      (attach env s.frontier onlyIfPresent b).andThen fun frontier =>
        .ok ((env.notify s.catchupScheduler (env.validatedTransition b).stateHash).1,
          attached env s source h b frontier) := by
  rw [addAndFinalize, finalizeBreadcrumb_eq hready]
  rfl

/-! ## The branch of catchup -/

/-- `add_and_finalize` succeeds for every breadcrumb in the order of the
list: attaching it does not raise and `notify` answers `Ok`. -/
def Accepted (t : CacheLib.T F (Value F Bc)) : Fr → T F → List Nat → Prop
  | _, _, [] => True
  | frontier, scheduler, h :: hs =>
    ∃ b c frontier', t.handles[h]? = some c ∧ c.value = .inr (.breadcrumb b) ∧
      attach env frontier true b = .ok frontier' ∧
      (env.notify scheduler (env.validatedTransition b).stateHash).1 = .ok () ∧
      Accepted t frontier' (env.notify scheduler (env.validatedTransition b).stateHash).2 hs

/-- `Cached.t`s of different registrations. -/
def Apart {A B : Type} (t : CacheLib.T A B) (h k : Nat) : Prop := ∀ x y l, Of t h x l → ¬ Of t k y l

theorem Ready.handOn {t : CacheLib.T F (Value F Bc)} {h k : Nat} {b : Bc} {c : Cached F (Value F Bc)}
    (hk : Ready t k b c) (hapart : Apart t h k) : Ready (handOn t h) k b c := by
  refine ⟨by rw [handOn_handles]; exact hk.cached, hk.value, fun x l hreg => ?_⟩
  rw [(handOn_frame fun y hy => hapart y x l hy ⟨c, hk.cached, hreg⟩).1]
  exact hk.empty x l hreg

/-- What a registration is after its breadcrumb was handed on. -/
structure Succeeded {A B : Type} (t t' : CacheLib.T A B) (x : A) (l : Nat) : Prop where
  once : fills t' l = fills t l + 1
  success : t'.finalStates[l]? = some (some (.success x))

theorem of_congr {A B : Type} {t t' : CacheLib.T A B} (heq : t'.handles = t.handles) {h : Nat} {x : A} {l : Nat} :
    Of t' h x l ↔ Of t h x l := by
  unfold Of
  rw [heq]

omit [DecidableEq F] in
theorem accepted_congr {t t' : CacheLib.T F (Value F Bc)} (heq : t'.handles = t.handles) {frontier : Fr}
    {scheduler : T F} {hs : List Nat} : Accepted env t' frontier scheduler hs ↔ Accepted env t frontier scheduler hs := by
  induction hs generalizing frontier scheduler with
  | nil => exact Iff.rfl
  | cons h hs ih => simp only [Accepted, heq, ih]

/-- All breadcrumbs are accepted. -/
theorem iterList_accepted {hs : List Nat} {s : State F Bc Fr} (hready : ∀ h ∈ hs, ∃ b c, Ready s.cache h b c)
    (hapart : hs.Pairwise (Apart s.cache)) (hok : Accepted env s.cache s.frontier s.catchupScheduler hs) :
    ∃ s', iterList (addAndFinalize env true .catchup) s hs = .ok (.ok (), s') ∧
      s'.cache.handles = s.cache.handles ∧ s'.decrementSignals = s.decrementSignals ∧
      (∀ k, k ∈ s'.handed ↔ k ∈ hs ∨ k ∈ s.handed) ∧
      (∀ m, (∀ h ∈ hs, ∀ x, ¬ Of s.cache h x m) →
        s'.cache.finalStates[m]? = s.cache.finalStates[m]? ∧ fills s'.cache m = fills s.cache m) ∧
      ∀ h ∈ hs, ∀ x l, Of s.cache h x l → Succeeded s.cache s'.cache x l := by
  induction hs generalizing s with
  | nil => exact ⟨s, rfl, rfl, rfl, by simp, fun m _ => ⟨rfl, rfl⟩, by simp⟩
  | cons h hs ih =>
    obtain ⟨b, c, frontier, hc, hvalue, hattach, hnotify, hok⟩ := hok
    obtain ⟨b', c', hh⟩ := hready h List.mem_cons_self
    cases hc.symm.trans hh.cached
    cases hvalue.symm.trans hh.value
    obtain ⟨hfirst, hapart⟩ := List.pairwise_cons.1 hapart
    set s₁ := attached env s .catchup h b frontier with hs₁
    have hhandles : s₁.cache.handles = s.cache.handles := handOn_handles _ _
    have hof : ∀ {k x l}, Of s₁.cache k x l ↔ Of s.cache k x l := of_congr hhandles
    obtain ⟨s', hiter, hhandles', hsignals, hhanded, hframe, hsucceeded⟩ := ih (s := s₁)
      (fun k hk => by
        obtain ⟨b, c, hready⟩ := hready k (List.mem_cons_of_mem _ hk)
        exact ⟨b, c, hready.handOn (hfirst k hk)⟩)
      (hapart.imp fun hap x y l hx hy => hap x y l (hof.1 hx) (hof.1 hy))
      ((accepted_congr env hhandles).2 hok)
    refine ⟨s', ?_, hhandles'.trans hhandles, hsignals, ?_, ?_, ?_⟩
    · rw [iterList, addAndFinalize_eq env hh, hattach, Exn.andThen_ok, hnotify]
      exact hiter
    · intro k
      rw [hhanded k, List.mem_cons, hs₁, attached, List.mem_cons]
      tauto
    · intro m hm
      obtain ⟨hstate, hfills⟩ := handOn_frame (hm h List.mem_cons_self)
      obtain ⟨hstate', hfills'⟩ := hframe m fun k hk x hx => hm k (List.mem_cons_of_mem _ hk) x (hof.1 hx)
      exact ⟨hstate'.trans hstate, hfills'.trans hfills⟩
    · intro k hk x l hkl
      rcases List.mem_cons.1 hk with rfl | hk
      · obtain ⟨d, hd, hreg⟩ := hkl
        cases hc.symm.trans hd
        -- the rest of the list leaves this registration alone
        obtain ⟨hstate, hfills⟩ := hframe l fun j hj y hy => hfirst j hj x y l ⟨c, hc, hreg⟩ (hof.1 hy)
        have hcache : s₁.cache = finalised s.cache (.success x) .consumed x l := handOn_of hc hreg
        refine ⟨?_, ?_⟩
        · rw [hfills, hcache, fills_finalised, if_pos rfl]
        · rw [hstate, hcache, finalStates_finalised, if_pos rfl, hh.empty x l hreg]
          rfl
      · obtain ⟨hstate, hfills⟩ := handOn_frame fun y hy => hfirst k hk y x l hy hkl
        have hk := hsucceeded k hk x l (hof.2 hkl)
        exact ⟨hk.once.trans (congrArg (· + 1) hfills), hk.success⟩

theorem Spent.handOn {A B : Type} [DecidableEq A] {t : CacheLib.T A B} {h k : Nat} (hs : Spent t h) :
    Spent (handOn t k) h := by
  obtain ⟨c, hc, hfull⟩ := hs
  refine ⟨c, by rw [handOn_handles]; exact hc, fun x l hreg => ?_⟩
  have hl := hfull x l hreg
  unfold Processor.handOn
  split
  next y m _ =>
    rw [isFull, finalStates_finalised]
    by_cases hm : l = m
    · subst hm
      rw [if_pos rfl]
      rw [isFull] at hl
      cases hstate : t.finalStates[l]? with
      | none =>
        rw [hstate] at hl
        exact hl
      | some v => rfl
    · rw [if_neg hm]
      exact hl
  next => exact hl

/-- What was handed on can be invalidated no more. -/
theorem Ready.spent {t : CacheLib.T F (Value F Bc)} {h : Nat} {b : Bc} {c : Cached F (Value F Bc)}
    (hready : Ready t h b c) : Spent (Processor.handOn t h) h := by
  refine ⟨c, by rw [handOn_handles]; exact hready.cached, fun x l hreg => ?_⟩
  rw [handOn_of hready.cached hreg, isFull, finalStates_finalised, if_pos rfl, hready.empty x l hreg]
  rfl

/-- A breadcrumb is not accepted: the loop raises, or it stops with an error
when the first breadcrumb of the list was handed on. -/
theorem iterList_rejected {hs : List Nat} {s : State F Bc Fr} (hready : ∀ h ∈ hs, ∃ b c, Ready s.cache h b c)
    (hapart : hs.Pairwise (Apart s.cache)) (hno : ¬ Accepted env s.cache s.frontier s.catchupScheduler hs) :
    (∃ e, iterList (addAndFinalize env true .catchup) s hs = .error e) ∨
      ∃ e s', iterList (addAndFinalize env true .catchup) s hs = .ok (.error e, s') ∧
        (∃ h hs', hs = h :: hs' ∧ Spent s'.cache h) ∧ ∀ k, Spent s.cache k → Spent s'.cache k := by
  induction hs generalizing s with
  | nil => exact absurd trivial hno
  | cons h hs ih =>
    obtain ⟨b, c, hh⟩ := hready h List.mem_cons_self
    obtain ⟨hfirst, hapart⟩ := List.pairwise_cons.1 hapart
    rw [iterList, addAndFinalize_eq env hh]
    cases hattach : attach env s.frontier true b with
    | error e => exact Or.inl ⟨e, rfl⟩
    | ok frontier =>
      set s₁ := attached env s .catchup h b frontier with hs₁
      have hspent : Spent s₁.cache h := hh.spent
      rw [Exn.andThen_ok, Exn.andThen_ok]
      cases hnotify : (env.notify s.catchupScheduler (env.validatedTransition b).stateHash).1 with
      | error e => exact Or.inr ⟨e, s₁, rfl, ⟨h, hs, rfl, hspent⟩, fun k hk => hk.handOn⟩
      | ok u =>
        have hhandles : s₁.cache.handles = s.cache.handles := handOn_handles _ _
        have hrest : ¬ Accepted env s₁.cache s₁.frontier s₁.catchupScheduler hs := by
          rw [accepted_congr env hhandles]
          exact fun hok => hno ⟨b, c, frontier, hh.cached, hh.value, hattach, hnotify, hok⟩
        rcases ih (s := s₁)
          (fun k hk => by
            obtain ⟨b, c, hready⟩ := hready k (List.mem_cons_of_mem _ hk)
            exact ⟨b, c, hready.handOn (hfirst k hk)⟩)
          (hapart.imp fun hap x y l hx hy => hap x y l ((of_congr hhandles).1 hx) ((of_congr hhandles).1 hy)) hrest with
          ⟨e, he⟩ | ⟨e, s', he, -, hkeeps⟩
        · exact Or.inl ⟨e, he⟩
        · exact Or.inr ⟨e, s', he, ⟨h, hs, rfl, hkeeps h hspent⟩, fun k hk => hkeeps k hk.handOn⟩

end Mina.TransitionHandler.Processor
