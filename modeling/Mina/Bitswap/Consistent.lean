/-
The two maps of the bitswap downloader agree (`Balanced`): a root's counter is
the number of indices listed for it, its descendants cover the entries that
mention it, and only roots with a state are mentioned.

The total over all entries is stated over any finite set of links that covers
the entries of a root (`Counted`), so that an entry coming or going adds or
takes one term. The functions keep the agreement as long as two things do not
happen, and both do: a root that turns out malformed halfway through its
indices has had children collected, which are added after the root is cleared
(`run_panics`); and a root asked for again after its root block came in gets a
fresh state over its old entries.
-/
import Mina.Bitswap.StepFacts
import Mathlib.Algebra.BigOperators.Finprod
import Mathlib.Algebra.Order.BigOperators.Group.Finset

namespace Mina.Bitswap

namespace BitswapState

/-- The indices listed for a root at a link. -/
def listed (s : BitswapState) (c : BitswapBlockLink) (root : Root) : List NodeIndex :=
  ((s.nodeDownloadParams c).bind fun np => np.lookup root).getD []

/-- The entry of a link mentions a root. -/
def Mentions (s : BitswapState) (c : BitswapBlockLink) (root : Root) : Prop :=
  ∃ np, s.nodeDownloadParams c = some np ∧ root ∈ np

/-- A root's counter and descendants are right. -/
structure Counted (s : BitswapState) (root : Root) (state : RootDownloadState) : Prop where
  descendants : ∀ c, s.Mentions c root → c ∈ state.allDescendants
  counter : ∀ D : Finset BitswapBlockLink, (∀ c, s.Mentions c root → c ∈ D) →
    state.remainingNodeCounter = ∑ c ∈ D, ((s.listed c root).length : Int)

/-- The two maps agree. -/
structure Balanced (s : BitswapState) : Prop where
  counted : ∀ root state, s.rootDownloadStates root = some state → s.Counted root state
  known : ∀ c root, s.Mentions c root → (s.rootDownloadStates root).isSome

/-- No entry is empty. -/
def NoEmpty (s : BitswapState) : Prop := ∀ c np, s.nodeDownloadParams c = some np → np.keys ≠ []

variable {s s' : BitswapState}

theorem listed_of_not_mentions {c : BitswapBlockLink} {root : Root} (h : ¬ s.Mentions c root) :
    s.listed c root = [] := by
  unfold listed
  cases hnp : s.nodeDownloadParams c with
  | none => rfl
  | some np =>
    have hroot : root ∉ np := fun hmem => h ⟨np, hnp, hmem⟩
    rw [Option.bind_some, AList.lookup_eq_none.2 hroot, Option.getD_none]

theorem listed_some {c : BitswapBlockLink} {np : NodeParams} (h : s.nodeDownloadParams c = some np) (root : Root) :
    s.listed c root = (np.lookup root).getD [] := by rw [listed, h, Option.bind_some]

theorem getD_lookup (s : BitswapState) (c : BitswapBlockLink) (root : Root) :
    ((((s.nodeDownloadParams c).getD ∅ : NodeParams)).lookup root).getD [] = s.listed c root := by
  rw [listed]
  cases s.nodeDownloadParams c with
  | none => exact congrArg (Option.getD · []) (AList.lookup_empty root)
  | some np => rfl

theorem mem_getD {c : BitswapBlockLink} {root : Root} :
    root ∈ ((s.nodeDownloadParams c).getD ∅ : NodeParams) ↔ s.Mentions c root := by
  unfold Mentions
  cases s.nodeDownloadParams c with
  | none =>
    constructor
    · intro h
      exact absurd h (AList.notMem_empty root)
    · intro ⟨np, hnp, _⟩
      cases hnp
  | some np =>
    constructor
    · intro h
      exact ⟨np, rfl, h⟩
    · intro ⟨np', hnp, h⟩
      cases hnp
      exact h

/-! ## What the counters depend on -/

/-- States with the same entries and the same counters. -/
theorem Balanced.congr (h : s.Balanced) (hparams : s'.nodeDownloadParams = s.nodeDownloadParams)
    (hstates : ∀ root, (s'.rootDownloadStates root).map (fun st => (st.allDescendants, st.remainingNodeCounter)) =
      (s.rootDownloadStates root).map (fun st => (st.allDescendants, st.remainingNodeCounter))) : s'.Balanced := by
  have hlisted : ∀ c root, s'.listed c root = s.listed c root := by
    intro c root
    rw [listed, listed, hparams]
  have hmentions : ∀ c root, s'.Mentions c root ↔ s.Mentions c root := by
    intro c root
    rw [Mentions, Mentions, hparams]
  refine ⟨fun root state hstate => ?_, fun c root hm => ?_⟩
  · have hroot := hstates root
    rw [hstate, Option.map_some] at hroot
    obtain ⟨state₀, hstate₀, heq⟩ := Option.map_eq_some_iff.1 hroot.symm
    obtain ⟨hdesc, hcounter⟩ := Prod.mk.inj heq
    have hcounted := h.counted root state₀ hstate₀
    refine ⟨fun c hc => hdesc ▸ hcounted.descendants c ((hmentions c root).1 hc), fun D hD => ?_⟩
    rw [← hcounter, hcounted.counter D fun c hc => hD c ((hmentions c root).2 hc)]
    exact Finset.sum_congr rfl fun c _ => by rw [hlisted]
  · have hroot := h.known c root ((hmentions c root).1 hm)
    rw [← Option.isSome_map, hstates, Option.isSome_map]
    exact hroot

/-- One more term, or one less, at a link. -/
theorem sum_at {f g : BitswapBlockLink → Int} {c₀ : BitswapBlockLink} {n : Int} {D : Finset BitswapBlockLink}
    (hD : c₀ ∈ D) (h : ∀ c, f c = g c + if c = c₀ then n else 0) : ∑ c ∈ D, f c = ∑ c ∈ D, g c + n := by
  rw [Finset.sum_congr rfl fun c _ => h c, Finset.sum_add_distrib, Finset.sum_ite_eq' D c₀, if_pos hD]

/-! ## An entry is taken out -/

@[simp]
theorem takeParams_params (id : BitswapBlockLink) (oldPs : NodeParams) :
    (s.takeParams id oldPs).nodeDownloadParams = Function.update s.nodeDownloadParams id none := rfl

theorem takeParams_listed (id : BitswapBlockLink) (oldPs : NodeParams) (c : BitswapBlockLink) (root : Root) :
    (s.takeParams id oldPs).listed c root = if c = id then [] else s.listed c root := by
  rw [listed, takeParams_params]
  by_cases hc : c = id
  · rw [if_pos hc, hc, Function.update_self]
    rfl
  · rw [if_neg hc, Function.update_of_ne hc, listed]

theorem takeParams_mentions {id : BitswapBlockLink} {oldPs : NodeParams} {c : BitswapBlockLink} {root : Root} :
    (s.takeParams id oldPs).Mentions c root ↔ c ≠ id ∧ s.Mentions c root := by
  unfold Mentions
  rw [takeParams_params]
  by_cases hc : c = id
  · rw [hc, Function.update_self]
    simp
  · rw [Function.update_of_ne hc]
    simp [hc]

theorem Balanced.takeParams (h : s.Balanced) {id : BitswapBlockLink} {oldPs : NodeParams}
    (hold : s.nodeDownloadParams id = some oldPs) : (s.takeParams id oldPs).Balanced := by
  refine ⟨fun root state hstate => ?_, fun c root hm => ?_⟩
  · obtain ⟨state₀, hstate₀, rfl⟩ := Option.map_eq_some_iff.1 hstate
    have hcounted := h.counted root state₀ hstate₀
    refine ⟨fun c hc => hcounted.descendants c (takeParams_mentions.1 hc).2, fun D hD => ?_⟩
    have hcover : ∀ c, s.Mentions c root → c ∈ insert id D := by
      intro c hc
      by_cases hid : c = id
      · exact hid ▸ Finset.mem_insert_self ..
      · exact Finset.mem_insert_of_mem (hD c (takeParams_mentions.2 ⟨hid, hc⟩))
    have hterm : ∀ c, ((s.listed c root).length : Int) =
        ((s.takeParams id oldPs).listed c root).length + if c = id then ((s.listed id root).length : Int) else 0 := by
      intro c
      rw [takeParams_listed]
      by_cases hid : c = id
      · rw [if_pos hid, if_pos hid, hid]
        simp
      · rw [if_neg hid, if_neg hid]
        simp
    have hsum := hcounted.counter _ hcover
    rw [sum_at (Finset.mem_insert_self id D) hterm, listed_some hold] at hsum
    have hzero : ((s.takeParams id oldPs).listed id root).length = 0 := by rw [takeParams_listed, if_pos rfl]; rfl
    rw [Finset.sum_insert_of_eq_zero_if_notMem fun _ => by rw [hzero]; rfl] at hsum
    show state₀.remainingNodeCounter - _ = _
    omega
  · have hroot := h.known c root (takeParams_mentions.1 hm).2
    exact (Option.isSome_map ..).trans hroot

theorem NoEmpty.takeParams (h : s.NoEmpty) (id : BitswapBlockLink) (oldPs : NodeParams) :
    (s.takeParams id oldPs).NoEmpty := by
  intro c np hnp
  rw [takeParams_params] at hnp
  by_cases hc : c = id
  · rw [hc, Function.update_self] at hnp
    cases hnp
  · rw [Function.update_of_ne hc] at hnp
    exact h c np hnp

/-! ## A root is cleared -/

theorem clear_states (root : Root) (s : BitswapState) :
    (s.clearRootDownloadState root).rootDownloadStates = Function.update s.rootDownloadStates root none := by
  unfold clearRootDownloadState
  cases h : s.rootDownloadStates root with
  | none => exact (Function.update_eq_self_iff.2 h.symm).symm
  | some state => rfl

theorem lookup_withoutRoot {root root' : Root} (h : root ≠ root') (np : NodeParams) :
    (withoutRoot root' np).bind (fun np => np.lookup root) = np.lookup root := by
  unfold withoutRoot
  have herase := AList.lookup_erase_ne (s := np) h
  split
  · next hempty =>
    have hnot : root ∉ np.erase root' := by
      rw [AList.mem_keys, hempty]
      exact List.not_mem_nil
    rw [← herase, AList.lookup_eq_none.2 hnot]
    rfl
  · exact herase

theorem clear_listed {root root' : Root} (h : root ≠ root') (s : BitswapState) (c : BitswapBlockLink) :
    (s.clearRootDownloadState root').listed c root = s.listed c root := by
  unfold clearRootDownloadState
  cases s.rootDownloadStates root' with
  | none => rfl
  | some state =>
    unfold listed
    dsimp only
    split
    · rw [Option.bind_assoc]
      congr 2
      exact funext fun np => lookup_withoutRoot h np
    · rfl

theorem mentions_iff {c : BitswapBlockLink} {root : Root} :
    s.Mentions c root ↔ ((s.nodeDownloadParams c).bind fun np => np.lookup root).isSome := by
  unfold Mentions
  cases s.nodeDownloadParams c with
  | none => simp
  | some np =>
    rw [Option.bind_some, AList.lookup_isSome]
    constructor
    · intro ⟨np', hnp, h⟩
      cases hnp
      exact h
    · intro h
      exact ⟨np, rfl, h⟩

theorem clear_mentions_other {root root' : Root} (h : root ≠ root') (c : BitswapBlockLink) :
    (s.clearRootDownloadState root').Mentions c root ↔ s.Mentions c root := by
  rw [mentions_iff, mentions_iff]
  unfold clearRootDownloadState
  cases s.rootDownloadStates root' with
  | none => exact Iff.rfl
  | some state =>
    dsimp only
    split
    · rw [Option.bind_assoc, show (fun np => (withoutRoot root' np).bind fun np => np.lookup root) =
        fun np : NodeParams => np.lookup root from funext fun np => lookup_withoutRoot h np]
    · exact Iff.rfl

/-- A cleared root is mentioned nowhere. -/
theorem Balanced.clear_mentions (h : s.Balanced) (root : Root) (c : BitswapBlockLink) :
    ¬ (s.clearRootDownloadState root).Mentions c root := by
  unfold clearRootDownloadState
  cases hstate : s.rootDownloadStates root with
  | none =>
    intro hm
    have hknown := h.known c root hm
    rw [hstate] at hknown
    cases hknown
  | some state =>
    intro ⟨np, hnp, hmem⟩
    dsimp only at hnp
    split at hnp
    · obtain ⟨np₀, -, hnp⟩ := Option.bind_eq_some_iff.1 hnp
      unfold withoutRoot at hnp
      split at hnp
      · cases hnp
      · cases hnp
        exact (AList.mem_erase.1 hmem).1 rfl
    · next hnot => exact hnot ((h.counted root state hstate).descendants c ⟨np, hnp, hmem⟩)

theorem Balanced.clear (h : s.Balanced) (root : Root) : (s.clearRootDownloadState root).Balanced := by
  refine ⟨fun root' state hstate => ?_, fun c root' hm => ?_⟩
  · rw [clear_states] at hstate
    have hne : root' ≠ root := by
      intro heq
      rw [heq, Function.update_self] at hstate
      cases hstate
    rw [Function.update_of_ne hne] at hstate
    have hcounted := h.counted root' state hstate
    refine ⟨fun c hc => hcounted.descendants c ((clear_mentions_other hne c).1 hc), fun D hD => ?_⟩
    rw [hcounted.counter D fun c hc => hD c ((clear_mentions_other hne c).2 hc)]
    exact Finset.sum_congr rfl fun c _ => by rw [clear_listed hne]
  · have hne : root' ≠ root := fun heq => h.clear_mentions root c (heq ▸ hm)
    rw [clear_states, Function.update_of_ne hne]
    exact h.known c root' ((clear_mentions_other hne c).1 hm)

theorem NoEmpty.clear (h : s.NoEmpty) (root : Root) : (s.clearRootDownloadState root).NoEmpty := by
  unfold clearRootDownloadState
  cases s.rootDownloadStates root with
  | none => exact h
  | some state =>
    intro c np hnp
    dsimp only at hnp
    split at hnp
    · obtain ⟨np₀, -, hnp⟩ := Option.bind_eq_some_iff.1 hnp
      unfold withoutRoot at hnp
      split at hnp
      · cases hnp
      · next hne =>
        cases hnp
        exact hne
    · exact h c np hnp

/-! ## Indices are added -/

/-- An entry is made where there is none. -/
def touch (link : BitswapBlockLink) (s : BitswapState) : BitswapState :=
  { s with nodeDownloadParams :=
      Function.update s.nodeDownloadParams link (some ((s.nodeDownloadParams link).getD ∅)) }

theorem touch_listed (link c : BitswapBlockLink) (root : Root) : (s.touch link).listed c root = s.listed c root := by
  by_cases hc : c = link
  · subst hc
    exact (listed_some (Function.update_self ..) root).trans (getD_lookup s c root)
  · rw [listed, listed, touch]
    dsimp only
    rw [Function.update_of_ne hc]

theorem touch_mentions (link c : BitswapBlockLink) (root : Root) :
    (s.touch link).Mentions c root ↔ s.Mentions c root := by
  by_cases hc : c = link
  · subst hc
    rw [← mem_getD, ← mem_getD, touch]
    dsimp only
    rw [Function.update_self, Option.getD_some]
  · rw [Mentions, Mentions, touch]
    dsimp only
    rw [Function.update_of_ne hc]

theorem Balanced.touch (h : s.Balanced) (link : BitswapBlockLink) : (s.touch link).Balanced := by
  refine ⟨fun root state hstate => ?_, fun c root hm => h.known c root ((touch_mentions link c root).1 hm)⟩
  have hcounted := h.counted root state hstate
  refine ⟨fun c hc => hcounted.descendants c ((touch_mentions link c root).1 hc), fun D hD => ?_⟩
  rw [hcounted.counter D fun c hc => hD c ((touch_mentions link c root).2 hc)]
  exact Finset.sum_congr rfl fun c _ => by rw [touch_listed]

section

variable {link : BitswapBlockLink} {l : LinksLoop} {e : Sigma fun _ : Root => List NodeIndex}

theorem addIxs_params : (addIxs link l e).st.nodeDownloadParams =
    Function.update l.st.nodeDownloadParams link
      (some ((((l.st.nodeDownloadParams link).getD ∅ : NodeParams)).insert e.1
        (l.st.listed link e.1 ++ e.2))) := by
  rw [← getD_lookup]
  unfold addIxs
  dsimp only
  split <;> rfl

theorem addIxs_states : (addIxs link l e).st.rootDownloadStates =
    Function.update l.st.rootDownloadStates e.1 ((l.st.rootDownloadStates e.1).map fun state =>
      { state with
        allDescendants := insert link state.allDescendants
        remainingNodeCounter := state.remainingNodeCounter + e.2.length }) := by
  unfold addIxs
  dsimp only
  split
  · next h =>
    rw [h]
    exact (Function.update_eq_self_iff.2 h.symm).symm
  · next state h =>
    rw [h]
    rfl

theorem addIxs_some (h : (l.st.rootDownloadStates e.1).isSome) : (addIxs link l e).someRootState = some e.1 := by
  obtain ⟨state, hstate⟩ := Option.isSome_iff_exists.1 h
  unfold addIxs
  dsimp only
  rw [hstate]

theorem addIxs_listed (c : BitswapBlockLink) (root : Root) : (addIxs link l e).st.listed c root =
    l.st.listed c root ++ if c = link ∧ root = e.1 then e.2 else [] := by
  by_cases hc : c = link
  · subst hc
    rw [listed_some (by rw [addIxs_params, Function.update_self])]
    by_cases hroot : root = e.1
    · subst hroot
      rw [AList.lookup_insert, if_pos ⟨rfl, rfl⟩, Option.getD_some]
    · rw [AList.lookup_insert_ne hroot, getD_lookup, if_neg (fun h => hroot h.2), List.append_nil]
  · rw [listed, addIxs_params, Function.update_of_ne hc, if_neg (fun h => hc h.1), List.append_nil, listed]

theorem addIxs_mentions {c : BitswapBlockLink} {root : Root} :
    (addIxs link l e).st.Mentions c root ↔ l.st.Mentions c root ∨ (c = link ∧ root = e.1) := by
  by_cases hc : c = link
  · subst hc
    rw [← mem_getD, addIxs_params, Function.update_self, Option.getD_some, AList.mem_insert, mem_getD]
    simp [or_comm]
  · unfold Mentions
    rw [addIxs_params, Function.update_of_ne hc]
    simp [hc]

theorem Balanced.addIxs (h : l.st.Balanced) (he : (l.st.rootDownloadStates e.1).isSome) :
    (addIxs link l e).st.Balanced := by
  have hnew : ∀ root state, (BitswapState.addIxs link l e).st.rootDownloadStates root = some state →
      ∃ state₀, l.st.rootDownloadStates root = some state₀ ∧ state₀.allDescendants ⊆ state.allDescendants ∧
        (root = e.1 → link ∈ state.allDescendants) ∧ state.remainingNodeCounter =
          state₀.remainingNodeCounter + if root = e.1 then (e.2.length : Int) else 0 := by
    intro root state hstate
    rw [addIxs_states] at hstate
    by_cases hroot : root = e.1
    · subst hroot
      rw [Function.update_self] at hstate
      obtain ⟨state₀, hstate₀, rfl⟩ := Option.map_eq_some_iff.1 hstate
      exact ⟨state₀, hstate₀, Finset.subset_insert _ _, fun _ => Finset.mem_insert_self _ _, by rw [if_pos rfl]⟩
    · rw [Function.update_of_ne hroot] at hstate
      exact ⟨state, hstate, Finset.Subset.refl _, fun h => absurd h hroot, by rw [if_neg hroot, Int.add_zero]⟩
  refine ⟨fun root state hstate => ?_, fun c root hm => ?_⟩
  · obtain ⟨state₀, hstate₀, hdesc, hlink, hcounter⟩ := hnew root state hstate
    have hcounted := h.counted root state₀ hstate₀
    refine ⟨fun c hc => ?_, fun D hD => ?_⟩
    · rcases addIxs_mentions.1 hc with hc | ⟨rfl, hroot⟩
      · exact hdesc (hcounted.descendants c hc)
      · exact hlink hroot
    · rw [hcounter, hcounted.counter D fun c hc => hD c (addIxs_mentions.2 (.inl hc))]
      by_cases hroot : root = e.1
      · have hmem : link ∈ D := hD link (addIxs_mentions.2 (.inr ⟨rfl, hroot⟩))
        rw [if_pos hroot]
        refine (sum_at hmem fun c => ?_).symm
        rw [addIxs_listed, List.length_append]
        by_cases hc : c = link
        · rw [if_pos ⟨hc, hroot⟩, if_pos hc]
          push_cast
          rfl
        · rw [if_neg (fun h => hc h.1), if_neg hc]
          simp
      · rw [if_neg hroot, Int.add_zero]
        refine Finset.sum_congr rfl fun c _ => ?_
        rw [addIxs_listed, if_neg (fun h => hroot h.2), List.append_nil]
  · rw [addIxs_states]
    by_cases hroot : root = e.1
    · rw [hroot, Function.update_self, Option.isSome_map]
      exact he
    · rw [Function.update_of_ne hroot]
      exact h.known c root ((addIxs_mentions.1 hm).resolve_right fun h => hroot h.2)

/-- Whether a root has a state does not change. -/
theorem addIxs_isSome (root : Root) :
    ((addIxs link l e).st.rootDownloadStates root).isSome = (l.st.rootDownloadStates root).isSome := by
  rw [addIxs_states]
  by_cases hroot : root = e.1
  · rw [hroot, Function.update_self, Option.isSome_map]
  · rw [Function.update_of_ne hroot]

end

/-- All the indices at one link. -/
structure Added (l l' : LinksLoop) (link : BitswapBlockLink) : Prop where
  balanced : l.st.Balanced → l'.st.Balanced
  isSome : ∀ root, (l'.st.rootDownloadStates root).isSome = (l.st.rootDownloadStates root).isSome
  others : ∀ c, c ≠ link → l'.st.nodeDownloadParams c = l.st.nodeDownloadParams c
  someRoot : l'.someRootState ≠ none
  nonempty : ∀ np, l'.st.nodeDownloadParams link = some np → np.keys ≠ []

theorem addAllIxs (link : BitswapBlockLink) {es : List (Sigma fun _ : Root => List NodeIndex)} (hne : es ≠ [])
    {l : LinksLoop} (hes : ∀ e ∈ es, (l.st.rootDownloadStates e.1).isSome) :
    Added l (es.foldl (addIxs link) l) link := by
  -- the last entry decides the facts that hold only once something is added
  induction es using List.reverseRecOn with
  | nil => exact absurd rfl hne
  | append_singleton es e ih =>
    rw [List.foldl_append, List.foldl_cons, List.foldl_nil]
    have hmid : (l.st.Balanced → (es.foldl (addIxs link) l).st.Balanced) ∧
        (∀ root, ((es.foldl (addIxs link) l).st.rootDownloadStates root).isSome =
          (l.st.rootDownloadStates root).isSome) ∧
        ∀ c, c ≠ link → (es.foldl (addIxs link) l).st.nodeDownloadParams c = l.st.nodeDownloadParams c := by
      by_cases hes' : es = []
      · subst hes'
        exact ⟨id, fun _ => rfl, fun _ _ => rfl⟩
      · have hall := ih hes' fun e' he' => hes e' (List.mem_append_left _ he')
        exact ⟨hall.balanced, hall.isSome, hall.others⟩
    obtain ⟨hbal, hsome, hothers⟩ := hmid
    have he : ((es.foldl (addIxs link) l).st.rootDownloadStates e.1).isSome := by
      rw [hsome]
      exact hes e (List.mem_append_right _ (List.mem_singleton_self e))
    refine ⟨fun h => (hbal h).addIxs he, fun root => (addIxs_isSome root).trans (hsome root), fun c hc => ?_, ?_, ?_⟩
    · rw [addIxs_params, Function.update_of_ne hc, hothers c hc]
    · rw [addIxs_some he]
      exact Option.some_ne_none _
    · intro np hnp
      rw [addIxs_params, Function.update_self, Option.some.injEq] at hnp
      rw [← hnp, AList.keys_insert]
      exact List.cons_ne_nil _ _

theorem addLink_st (newParams : Children) (l : LinksLoop) (link : BitswapBlockLink) :
    (addLink newParams l link).st =
        (((newParams.lookup link).getD ∅).entries.foldl (addIxs link) { l with st := l.st.touch link }).st ∧
      (addLink newParams l link).someRootState =
        (((newParams.lookup link).getD ∅).entries.foldl (addIxs link) { l with st := l.st.touch link }).someRootState := by
  unfold addLink
  dsimp only
  split <;> exact ⟨rfl, rfl⟩

end BitswapState

end Mina.Bitswap
