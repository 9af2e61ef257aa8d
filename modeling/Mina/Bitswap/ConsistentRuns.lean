/-
Every run of the bitswap downloader keeps its two maps consistent and never
panics, as long as every step meets a condition (`run_consistent`): a block
that has links fits a root at all the indices listed for it when it fits at
the first, and a root is asked for again only while its own block is waited
for or when the storage refuses it.

Both conditions are needed. A block whose first index fits has its children
collected before a later index turns out not to fit; the root is cleared, the
children are then added for a root that has no state, and when there is no
other root for them the request goes to a session that is not there
(`run_panics`).
-/
import Mina.Bitswap.Consistent
import Mina.Bitswap.BlockTree

namespace Mina.Bitswap

namespace BitswapState

variable {cfg : Config} {s : BitswapState}

/-! ## Messages -/

theorem Balanced.requestBlocks (h : s.Balanced) (keys : List BitswapBlockLink) : (s.requestBlocks keys).Balanced :=
  h.congr rfl fun _ => rfl

theorem NoEmpty.requestBlocks (h : s.NoEmpty) (keys : List BitswapBlockLink) : (s.requestBlocks keys).NoEmpty := h

theorem Balanced.sendResourceUpdate (h : s.Balanced) (type_ : ResourceUpdateType) (root : Root) :
    (s.sendResourceUpdate type_ root).Balanced := h.congr rfl fun _ => rfl

theorem Balanced.registerDeadlineTracker (h : s.Balanced) (root : Root) (timeout : Nat) :
    (s.registerDeadlineTracker root timeout).Balanced := h.congr rfl fun _ => rfl

/-! ## The loops of one block -/

/-- The links of a block, taken in any order. -/
theorem addLinks (newParams : Children) (hnew : newParams.NoEmpty) {links : List BitswapBlockLink}
    (hlinks : ∀ link ∈ links, link ∈ newParams) {l : LinksLoop}
    (hroots : ∀ link np root, newParams.lookup link = some np → root ∈ np → (l.st.rootDownloadStates root).isSome)
    (hbal : l.st.Balanced) (hne : l.st.NoEmpty) :
    (links.foldl (addLink newParams) l).st.Balanced ∧ (links.foldl (addLink newParams) l).st.NoEmpty ∧
      (links ≠ [] ∨ l.someRootState ≠ none → (links.foldl (addLink newParams) l).someRootState ≠ none) := by
  induction links generalizing l with
  | nil => exact ⟨hbal, hne, fun h => h.resolve_left fun h => h rfl⟩
  | cons link links ih =>
    obtain ⟨np, hnp⟩ := Option.isSome_iff_exists.1 (AList.lookup_isSome.2 (hlinks link List.mem_cons_self))
    have hentries : np.entries ≠ [] := by
      intro hnil
      have hkeys : np.entries.keys ≠ [] := (hnew link np hnp).1
      rw [hnil] at hkeys
      exact hkeys rfl
    have hes : ∀ e ∈ np.entries, (l.st.rootDownloadStates e.1).isSome := fun e he =>
      hroots link np e.1 hnp (AList.mem_keys.2 (List.mem_keys_of_mem he))
    have hadded := addAllIxs link hentries (l := { l with st := l.st.touch link }) hes
    obtain ⟨hst, hsome⟩ := addLink_st newParams l link
    rw [hnp, Option.getD_some] at hst hsome
    rw [List.foldl_cons]
    obtain ⟨hbal', hne', hsome'⟩ := ih (l := addLink newParams l link)
      (fun link' hl => hlinks link' (List.mem_cons_of_mem _ hl))
      (fun link' np' root hnp' hroot => by
        rw [hst, hadded.isSome]
        exact hroots link' np' root hnp' hroot)
      (by rw [hst]; exact hadded.balanced (hbal.touch link))
      (by
        rw [hst]
        intro c np' hnp'
        by_cases hc : c = link
        · exact hadded.nonempty np' (hc ▸ hnp')
        · rw [hadded.others c hc] at hnp'
          refine hne c np' (Eq.trans ?_ hnp')
          exact (Function.update_of_ne hc _ _).symm)
    refine ⟨hbal', hne', fun _ => hsome' (.inr ?_)⟩
    rw [hsome]
    exact hadded.someRoot

/-- A request is only made when a root's session is there for it. -/
theorem not_nil_state {newParams : Children} {links : List BitswapBlockLink} {l : LinksLoop} (hl : l.toDownload = [])
    (h : links ≠ [] ∨ l.someRootState ≠ none → (links.foldl (addLink newParams) l).someRootState ≠ none) :
    ¬ ((links.foldl (addLink newParams) l).toDownload ≠ [] ∧
      (links.foldl (addLink newParams) l).someRootState = none) := by
  intro ⟨hdownload, hnone⟩
  cases links with
  | nil => exact hdownload hl
  | cons link links => exact h (.inl (List.cons_ne_nil _ _)) hnone

theorem dropAll (hbal : s.Balanced) (hne : s.NoEmpty) (roots : List Root) :
    (roots.foldl dropMalformed s).Balanced ∧ (roots.foldl dropMalformed s).NoEmpty ∧
      ∀ root, root ∉ roots → (roots.foldl dropMalformed s).rootDownloadStates root = s.rootDownloadStates root := by
  induction roots generalizing s with
  | nil => exact ⟨hbal, hne, fun _ _ => rfl⟩
  | cons root roots ih =>
    obtain ⟨hbal', hne', hstates⟩ := ih (s := dropMalformed s root)
      ((hbal.clear root).sendResourceUpdate .broken root) (hne.clear root)
    refine ⟨hbal', hne', fun root' hnot => ?_⟩
    rw [List.mem_cons, not_or] at hnot
    rw [List.foldl_cons, hstates root' hnot.2]
    show (s.clearRootDownloadState root).rootDownloadStates root' = _
    rw [clear_states, Function.update_of_ne hnot.1]

theorem setStatus_frame {root : Root} {status : RootBlockStatus} {s' : BitswapState}
    (h : s.setStatus root status = .ok s') :
    s'.nodeDownloadParams = s.nodeDownloadParams ∧ s'.rootDownloadStates = s.rootDownloadStates ∧
      s'.blocks = s.blocks := by
  unfold setStatus at h
  split at h
  · cases h
  · split at h
    · cases h
      exact ⟨rfl, rfl, rfl⟩
    · cases h

theorem finishRoot_balanced (hbal : s.Balanced) (hne : s.NoEmpty) (root : Root) :
    (finishRoot s root).Balanced ∧ (finishRoot s root).NoEmpty := by
  unfold finishRoot
  split
  · exact ⟨hbal, hne⟩
  · split
    · dsimp only
      split
      · next s' hs' =>
        obtain ⟨hparams, hstates, -⟩ := setStatus_frame hs'
        have hbal' : s'.Balanced := hbal.congr hparams fun _ => by rw [hstates]
        have hne' : s'.NoEmpty := fun c np hnp => hne c np (hparams ▸ hnp)
        exact ⟨(hbal'.clear root).sendResourceUpdate .added root, hne'.clear root⟩
      · exact ⟨(hbal.clear root).sendResourceUpdate .added root, hne.clear root⟩
    · exact ⟨hbal, hne⟩

theorem finishAll (hbal : s.Balanced) (hne : s.NoEmpty) (roots : List Root) :
    (roots.foldl finishRoot s).Balanced ∧ (roots.foldl finishRoot s).NoEmpty := by
  induction roots generalizing s with
  | nil => exact ⟨hbal, hne⟩
  | cons root roots ih =>
    obtain ⟨hbal', hne'⟩ := finishRoot_balanced hbal hne root
    exact ih hbal' hne'

/-! ## One block -/

/-- A block that has links, and fits a root at the first index listed, fits
it at all of them. -/
def Uniform (cfg : Config) (s : BitswapState) (id : BitswapBlockLink) (block : Bytes) : Prop :=
  ∀ oldPs links data root ixs state schema, s.nodeDownloadParams id = some oldPs →
    readBitswapBlock block = .ok (links, data) → links ≠ [] → oldPs.lookup root = some ixs →
    s.rootDownloadStates root = some state → schemaFor cfg data state ixs = .ok (some schema) →
    (∀ ix, ixs.head? = some ix → Fits schema block.length links ix) → ∀ ix ∈ ixs, Fits schema block.length links ix

/-- A root a block belongs to, as the block's step sees it. -/
theorem stepOf_own (cfg : Config) (hbal : s.Balanced) {id : BitswapBlockLink} {oldPs : NodeParams}
    (hold : s.nodeDownloadParams id = some oldPs) {block : Bytes} {links : List BitswapBlockLink} {data : Bytes}
    (hread : readBitswapBlock block = .ok (links, data)) {root : Root} (hroot : root ∈ oldPs) :
    ∃ ixs state rp, oldPs.lookup root = some ixs ∧ s.rootDownloadStates root = some state ∧
      (s.takeParams id oldPs).rootDownloadStates root = some rp ∧ rp.schema = state.schema ∧ rp.tag = state.tag ∧
      (s.stepOf cfg id oldPs block).view root = (rootStep cfg block.length links data rp ixs).view rp := by
  obtain ⟨ixs, hixs⟩ := Option.isSome_iff_exists.1 (AList.lookup_isSome.2 hroot)
  obtain ⟨state, hstate⟩ := Option.isSome_iff_exists.1 (hbal.known id root ⟨oldPs, hold, hroot⟩)
  have hrp : (s.takeParams id oldPs).rootDownloadStates root = some { state with
      remainingNodeCounter := state.remainingNodeCounter - ((oldPs.lookup root).getD []).length } :=
    congrArg (Option.map _) hstate
  exact ⟨ixs, state, _, hixs, hstate, hrp, rfl, rfl, step_own hread hixs hrp⟩

/-- The schemas set do not change the counters. -/
theorem stepOf_core (hbal : s.Balanced) {id : BitswapBlockLink} {oldPs : NodeParams}
    (hold : s.nodeDownloadParams id = some oldPs) (block : Bytes) (root : Root) :
    ((s.stepOf cfg id oldPs block).rootParams root).map (fun st => (st.allDescendants, st.remainingNodeCounter)) =
      ((s.takeParams id oldPs).rootDownloadStates root).map fun st => (st.allDescendants, st.remainingNodeCounter) := by
  cases hread : readBitswapBlock block with
  | error err => rw [stepOf, (step_unreadable hread).2]
  | ok r =>
    by_cases hroot : root ∈ oldPs
    · obtain ⟨ixs, state, rp, -, -, hrp, -, -, hview⟩ := stepOf_own cfg hbal hold hread hroot
      have hparams : (s.stepOf cfg id oldPs block).rootParams root = some _ := congrArg RootView.state hview
      rw [hparams, hrp]
      rfl
    · have hparams : (s.stepOf cfg id oldPs block).rootParams root = _ :=
        congrArg RootView.state (step_other hread hroot)
      rw [hparams]

/-- Under the condition, a root with children has a state and is not malformed. -/
theorem stepOf_children (hbal : s.Balanced) {id : BitswapBlockLink} {oldPs : NodeParams}
    (hold : s.nodeDownloadParams id = some oldPs) {block : Bytes} (huniform : s.Uniform cfg id block)
    {link : BitswapBlockLink} {np : NodeParams} (hnp : (s.stepOf cfg id oldPs block).children.lookup link = some np)
    {root : Root} (hroot : root ∈ np) :
    ((s.stepOf cfg id oldPs block).rootParams root).isSome ∧
      root ∉ (s.stepOf cfg id oldPs block).malformed.keys := by
  obtain ⟨l, hl⟩ := Option.isSome_iff_exists.1 (AList.lookup_isSome.2 hroot)
  have hixs : (s.stepOf cfg id oldPs block).children.ixs link root ≠ [] := by
    rw [Children.ixs_eq hnp, hl, Option.getD_some]
    exact (step_noEmpty link np hnp).2 root l hl
  cases hread : readBitswapBlock block with
  | error err =>
    rw [stepOf, (step_unreadable hread).1, AList.lookup_empty] at hnp
    cases hnp
  | ok r =>
    obtain ⟨links, data⟩ := r
    by_cases hmem : root ∈ oldPs
    · obtain ⟨ixs, state, rp, hlookup, hstate, -, hschema, htag, hview⟩ := stepOf_own cfg hbal hold hread hmem
      have hparams : (s.stepOf cfg id oldPs block).rootParams root = some _ := congrArg RootView.state hview
      have hmalformed : (s.stepOf cfg id oldPs block).malformed.lookup root = _ := congrArg RootView.malformed hview
      have hchildren : (s.stepOf cfg id oldPs block).children.ixs link root = _ :=
        congrFun (congrArg RootView.ixs hview) link
      have hsame : schemaFor cfg data rp ixs = schemaFor cfg data state ixs := by
        rw [schemaFor, schemaFor, hschema, htag]
      rw [hparams, ← AList.mem_keys, ← AList.lookup_eq_none, hmalformed]
      refine ⟨rfl, ?_⟩
      rw [hchildren] at hixs
      unfold rootStep at hixs ⊢
      rw [hsame] at hixs ⊢
      cases hfor : schemaFor cfg data state ixs with
      | error err =>
        rw [hfor] at hixs
        exact absurd rfl hixs
      | ok o =>
        cases o with
        | none =>
          rw [hfor] at hixs
          exact absurd rfl hixs
        | some schema =>
          rw [hfor] at hixs
          have hne : (indicesStep schema cfg.depthIndices block.length links ixs).1 ≠ [] := by
            intro hnil
            refine hixs ?_
            show Children.at_ (indicesStep schema cfg.depthIndices block.length links ixs).1 link = []
            rw [hnil]
            rfl
          obtain ⟨hlinks, hhead⟩ := indicesStep_children hne
          have hall := huniform oldPs links data root ixs state schema hold hread hlinks hlookup hstate hfor hhead
          show (indicesStep schema cfg.depthIndices block.length links ixs).2 = none
          rw [indicesStep_fits hall]
    · exact absurd (congrFun (congrArg RootView.ixs (step_other hread hmem)) link) hixs

/-- One block keeps the maps in agreement and does not panic. -/
theorem processDownloadedBlock_balanced (hbal : s.Balanced) (hne : s.NoEmpty) {id : BitswapBlockLink} {block : Bytes}
    (huniform : s.Uniform cfg id block) {links : List BitswapBlockLink}
    (hlinks : links.Perm (s.newLinks cfg id block)) :
    ∃ r, s.processDownloadedBlock cfg id block links = .ok r ∧ r.1.Balanced ∧ r.1.NoEmpty := by
  unfold processDownloadedBlock
  unfold newLinks at hlinks
  cases hold : s.nodeDownloadParams id with
  | none => exact ⟨_, rfl, hbal, hne⟩
  | some oldPs =>
    rw [hold] at hlinks
    dsimp only at hlinks ⊢
    have hbal₁ : BitswapState.Balanced { s.takeParams id oldPs with
        rootDownloadStates := (s.stepOf cfg id oldPs block).rootParams } :=
      (hbal.takeParams hold).congr rfl (stepOf_core hbal hold block)
    have hne₁ : BitswapState.NoEmpty { s.takeParams id oldPs with
        rootDownloadStates := (s.stepOf cfg id oldPs block).rootParams } := hne.takeParams id oldPs
    obtain ⟨hbal₂, hne₂, hstates⟩ := dropAll hbal₁ hne₁ (s.stepOf cfg id oldPs block).malformed.keys
    obtain ⟨hbal₃, hne₃, hsome⟩ := addLinks (s.stepOf cfg id oldPs block).children step_noEmpty
      (l := { st := _, blocksToProcess := [], toDownload := [], someRootState := none })
      (fun link hlink => AList.mem_keys.2 (hlinks.mem_iff.1 hlink))
      (fun link np root hnp hroot => by
        obtain ⟨hstate, hnot⟩ := stepOf_children hbal hold huniform hnp hroot
        exact (congrArg Option.isSome (hstates root hnot)).trans hstate) hbal₂ hne₂
    rw [if_neg (not_nil_state rfl hsome)]
    exact ⟨_, rfl, finishAll (hbal₃.requestBlocks _) (hne₃.requestBlocks _) oldPs.keys⟩

/-! ## A root is asked for -/

/-- A root's first entry and state. -/
def start (root_ : Root) (tag : BitswapDataTag) (s : BitswapState) : BitswapState :=
  { s with
    nodeDownloadParams := Function.update s.nodeDownloadParams root_ (some (AList.singleton root_ [0]))
    rootDownloadStates := Function.update s.rootDownloadStates root_ (some {
      allDescendants := {root_}, schema := none, tag := tag, remainingNodeCounter := 1 }) }

theorem start_params (root_ : Root) (tag : BitswapDataTag) : (s.start root_ tag).nodeDownloadParams =
    Function.update s.nodeDownloadParams root_ (some (AList.singleton root_ [0])) := rfl

theorem lookup_singleton_self (root : Root) (ixs : List NodeIndex) :
    (AList.singleton root ixs : NodeParams).lookup root = some ixs := by
  rw [← AList.insert_empty, AList.lookup_insert]

theorem lookup_singleton_other {root root' : Root} (h : root ≠ root') (ixs : List NodeIndex) :
    (AList.singleton root' ixs : NodeParams).lookup root = none := by
  rw [← AList.insert_empty, AList.lookup_insert_ne h, AList.lookup_empty]

/-- What is listed for a root once it is started. -/
theorem start_lookup {root_ : Root} (hparams : s.nodeDownloadParams root_ = none) (tag : BitswapDataTag)
    (c : BitswapBlockLink) (root : Root) :
    ((s.start root_ tag).nodeDownloadParams c).bind (fun np => np.lookup root) =
      if c = root_ ∧ root = root_ then some [0] else (s.nodeDownloadParams c).bind fun np => np.lookup root := by
  rw [start_params]
  by_cases hc : c = root_
  · subst hc
    rw [Function.update_self, Option.bind_some, hparams]
    by_cases hroot : root = c
    · rw [if_pos ⟨rfl, hroot⟩, hroot, lookup_singleton_self]
    · rw [if_neg (fun h => hroot h.2), lookup_singleton_other hroot]
      rfl
  · rw [Function.update_of_ne hc, if_neg (fun h => hc h.1)]

theorem Balanced.start (h : s.Balanced) (root_ : Root) (hparams : s.nodeDownloadParams root_ = none)
    (hstate : s.rootDownloadStates root_ = none) (tag : BitswapDataTag) : (s.start root_ tag).Balanced := by
  have hmentions : ∀ c root, (s.start root_ tag).Mentions c root ↔ (c = root_ ∧ root = root_) ∨ s.Mentions c root := by
    intro c root
    rw [mentions_iff, mentions_iff, start_lookup hparams]
    by_cases hown : c = root_ ∧ root = root_
    · simp [hown]
    · rw [if_neg hown]
      simp [hown]
  have hlisted : ∀ c root, (s.start root_ tag).listed c root =
      if c = root_ ∧ root = root_ then [0] else s.listed c root := by
    intro c root
    rw [listed, start_lookup hparams, listed]
    split <;> rfl
  have hfresh : ∀ c, ¬ s.Mentions c root_ := by
    intro c hm
    have := h.known c root_ hm
    rw [hstate] at this
    cases this
  refine ⟨fun root state hroot => ?_, fun c root hm => ?_⟩
  · change Function.update s.rootDownloadStates root_ _ root = some state at hroot
    by_cases hown : root = root_
    · subst hown
      rw [Function.update_self, Option.some.injEq] at hroot
      subst hroot
      refine ⟨fun c hc => ?_, fun D hD => ?_⟩
      · exact Finset.mem_singleton.2 (((hmentions c root).1 hc).resolve_right (hfresh c)).1
      · have hmem : root ∈ D := hD root ((hmentions root root).2 (.inl ⟨rfl, rfl⟩))
        have hterm : ∀ c, (((s.start root tag).listed c root).length : Int) = 0 + if c = root then 1 else 0 := by
          intro c
          rw [hlisted]
          by_cases hc : c = root
          · rw [if_pos ⟨hc, rfl⟩, if_pos hc]
            rfl
          · rw [if_neg (fun h => hc h.1), if_neg hc, listed_of_not_mentions (hfresh c)]
            rfl
        rw [sum_at hmem hterm, Finset.sum_const_zero]
        rfl
    · rw [Function.update_of_ne hown] at hroot
      have hcounted := h.counted root state hroot
      refine ⟨fun c hc => hcounted.descendants c (((hmentions c root).1 hc).resolve_left fun h => hown h.2),
        fun D hD => ?_⟩
      rw [hcounted.counter D fun c hc => hD c ((hmentions c root).2 (.inr hc))]
      refine Finset.sum_congr rfl fun c _ => ?_
      rw [hlisted, if_neg (fun h => hown h.2)]
  · show (Function.update s.rootDownloadStates root_ _ root).isSome = true
    by_cases hown : root = root_
    · rw [hown, Function.update_self]
      rfl
    · rw [Function.update_of_ne hown]
      exact h.known c root (((hmentions c root).1 hm).resolve_left fun h => hown h.2)

theorem NoEmpty.start (h : s.NoEmpty) (root_ : Root) (tag : BitswapDataTag) : (s.start root_ tag).NoEmpty := by
  intro c np hnp
  rw [start_params] at hnp
  by_cases hc : c = root_
  · rw [hc, Function.update_self, Option.some.injEq] at hnp
    rw [← hnp, AList.keys_singleton]
    exact List.cons_ne_nil _ _
  · rw [Function.update_of_ne hc] at hnp
    exact h c np hnp

theorem kickStart_balanced (hbal : s.Balanced) (hne : s.NoEmpty) {root_ : Root} (tag : BitswapDataTag)
    (requestFails : Bool) (hmeets : (s.rootDownloadStates root_).isSome →
      (s.nodeDownloadParams root_).isSome ∨ ∃ err, s.setStatus root_ .Partial = .error err) :
    (s.kickStartRootDownload cfg root_ tag requestFails).1.Balanced ∧
      (s.kickStartRootDownload cfg root_ tag requestFails).1.NoEmpty := by
  unfold kickStartRootDownload
  split
  · exact ⟨hbal, hne⟩
  · next hparams =>
    dsimp only
    cases hset : s.setStatus root_ .Partial with
    | error err =>
      dsimp only
      split
      · exact ⟨hbal.sendResourceUpdate .added root_, hne⟩
      · exact ⟨hbal, hne⟩
    | ok s₁ =>
      dsimp only
      obtain ⟨hparams₁, hstates₁, -⟩ := setStatus_frame hset
      have hstate : s.rootDownloadStates root_ = none := by
        cases hs : s.rootDownloadStates root_ with
        | none => rfl
        | some state =>
          rcases hmeets (by rw [hs]; rfl) with h | ⟨err, h⟩
          · exact absurd h hparams
          · rw [hset] at h
            cases h
      have hbal₁ : s₁.Balanced := hbal.congr hparams₁ fun _ => by rw [hstates₁]
      have hne₁ : s₁.NoEmpty := fun c np hnp => hne c np (hparams₁ ▸ hnp)
      have hbal₂ := hbal₁.start root_ (by rw [hparams₁]; exact Option.not_isSome_iff_eq_none.1 hparams)
        (by rw [hstates₁]; exact hstate) tag
      have hne₂ := hne₁.start root_ tag
      split
      · exact ⟨hbal₂.clear root_, hne₂.clear root_⟩
      · split
        · exact ⟨hbal₂.clear root_, hne₂.clear root_⟩
        · exact ⟨(hbal₂.requestBlocks _).registerDeadlineTracker root_ _, hne₂⟩
      · exact ⟨hbal₂.registerDeadlineTracker root_ _, hne₂⟩

end BitswapState

/-! ## Runs -/

/-- What a step must meet. -/
def Process.Meets (cfg : Config) (p : Process) : Event → Prop
  | .kickStart root _ _ => (p.st.rootDownloadStates root).isSome →
      (p.st.nodeDownloadParams root).isSome ∨ ∃ err, p.st.setStatus root .Partial = .error err
  | .next _ => ∀ b rest, p.pending = b :: rest → p.st.Uniform cfg b.1 b.2
  | _ => True

/-- Runs whose steps all satisfy `ok`. -/
inductive Run (cfg : Config) (ok : Process → Event → Prop) (p : Process) : Process → Prop where
  | refl : Run cfg ok p p
  | step {q q' : Process} {e : Event} :
      Run cfg ok p q → q.Enabled cfg e → ok q e → q.step cfg e = .ok q' → Run cfg ok p q'

/-- The two maps are consistent. -/
structure BitswapState.Consistent (s : BitswapState) : Prop where
  counter : ∀ root state, s.rootDownloadStates root = some state →
    state.remainingNodeCounter = (finsum fun c => (s.listed c root).length : Nat)
  descendants : ∀ root state c np, s.rootDownloadStates root = some state → s.nodeDownloadParams c = some np →
    root ∈ np → c ∈ state.allDescendants
  known : ∀ c np root, s.nodeDownloadParams c = some np → root ∈ np → (s.rootDownloadStates root).isSome
  nonempty : ∀ c np, s.nodeDownloadParams c = some np → np.keys ≠ []


theorem BitswapState.Balanced.consistent {s : BitswapState} (hbal : s.Balanced) (hne : s.NoEmpty) : s.Consistent := by
  refine ⟨fun root state hstate => ?_, fun root state c np hstate hnp hroot => ?_, fun c np root hnp hroot => ?_, hne⟩
  · have hcounted := hbal.counted root state hstate
    have hsupport : Function.support (fun c => (s.listed c root).length) ⊆ state.allDescendants := by
      intro c hc
      refine hcounted.descendants c ?_
      by_contra hnot
      exact hc (congrArg List.length (BitswapState.listed_of_not_mentions hnot))
    rw [hcounted.counter _ hcounted.descendants, finsum_eq_sum_of_support_subset _ hsupport]
    push_cast
    rfl
  · exact (hbal.counted root state hstate).descendants c ⟨np, hnp, hroot⟩
  · exact hbal.known c root ⟨np, hnp, hroot⟩

/-- One step. -/
theorem Process.step_balanced {cfg : Config} {p : Process} {e : Event} (hbal : p.st.Balanced) (hne : p.st.NoEmpty)
    (he : p.Enabled cfg e) (hmeets : p.Meets cfg e) :
    ∃ p', p.step cfg e = .ok p' ∧ p'.st.Balanced ∧ p'.st.NoEmpty := by
  cases e with
  | kickStart root tag requestFails =>
    exact ⟨_, rfl, BitswapState.kickStart_balanced hbal hne tag requestFails hmeets⟩
  | deliver id block => exact ⟨_, rfl, hbal, hne⟩
  | deadline root => exact ⟨_, rfl, hbal.clear root, hne.clear root⟩
  | storage statuses blocks => exact ⟨_, rfl, hbal.congr rfl fun _ => rfl, hne⟩
  | next links =>
    cases hpending : p.pending with
    | nil =>
      rw [Process.Enabled, hpending] at he
      exact absurd he id
    | cons b rest =>
      rw [Process.Enabled, hpending] at he
      obtain ⟨r, hr, hbal', hne'⟩ := BitswapState.processDownloadedBlock_balanced hbal hne (hmeets b rest hpending) he
      refine ⟨{ st := r.1, pending := r.2 ++ rest }, ?_, hbal', hne'⟩
      rw [Process.step, hpending]
      dsimp only
      rw [hr]
      rfl

theorem init_balanced (statuses : Root → Except String (Option RootBlockStatus)) (blocks : BitswapBlockLink → View) :
    (Process.init statuses blocks).st.Balanced ∧ (Process.init statuses blocks).st.NoEmpty := by
  refine ⟨⟨fun root state hstate => ?_, fun c root hm => ?_⟩, fun c np hnp => ?_⟩
  · cases hstate
  · obtain ⟨np, hnp, -⟩ := hm
    cases hnp
  · cases hnp

theorem Run.balanced {cfg : Config} {p q : Process} (hrun : Run cfg (fun q e => q.Meets cfg e) p q)
    (hbal : p.st.Balanced) (hne : p.st.NoEmpty) : q.st.Balanced ∧ q.st.NoEmpty := by
  induction hrun with
  | refl => exact ⟨hbal, hne⟩
  | step _ he hmeets hstep ih =>
    obtain ⟨q'', hstep', hbal', hne'⟩ := Process.step_balanced ih.1 ih.2 he hmeets
    rw [hstep] at hstep'
    cases hstep'
    exact ⟨hbal', hne'⟩

/-- A root asked for again after its own block came in gets a fresh state over
its old entries: whatever is still listed for it makes the maps inconsistent. -/
theorem BitswapState.kickStart_again {s s' : BitswapState} {cfg : Config} {root : Root} {c : BitswapBlockLink}
    {np : NodeParams} (tag : BitswapDataTag) (hroot : s.nodeDownloadParams root = none)
    (hset : s.setStatus root .Partial = .ok s') (hblock : s.blocks root ≠ .failed)
    (hnp : s.nodeDownloadParams c = some np) (hmem : root ∈ np) :
    ¬ (s.kickStartRootDownload cfg root tag false).1.Consistent := by
  intro hcons
  obtain ⟨hparams, -, hblocks⟩ := setStatus_frame hset
  have hc : c ≠ root := by
    intro heq
    rw [heq, hroot] at hnp
    cases hnp
  unfold kickStartRootDownload at hcons
  rw [hroot, hset] at hcons
  simp only [Option.isSome_none, Bool.false_eq_true, if_false, hblocks] at hcons
  have hentry : Function.update s'.nodeDownloadParams root (some (AList.singleton root [0])) c = some np :=
    (Function.update_of_ne hc _ _).trans (hparams ▸ hnp)
  split at hcons
  · next hfailed => exact hblock hfailed
  · exact hc (Finset.mem_singleton.1 (hcons.descendants root _ c np (Function.update_self ..) hentry hmem))
  · exact hc (Finset.mem_singleton.1 (hcons.descendants root _ c np (Function.update_self ..) hentry hmem))

/-! ## The runs that break -/

instance (cfg : Config) (p : Process) (e : Event) : Decidable (p.Enabled cfg e) :=
  match e with
  | .kickStart .. | .deliver .. | .deadline .. | .storage .. => inferInstanceAs (Decidable (p.pending = []))
  | .next links =>
    match h : p.pending with
    | [] => isFalse (by rw [Process.Enabled, h]; exact id)
    | b :: _ => decidable_of_iff (links.Perm (p.st.newLinks cfg b.1 b.2)) (by rw [Process.Enabled, h])

/-- The events one after the other. -/
def runEvents (cfg : Config) (p : Process) : List Event → Except String Process
  | [] => .ok p
  | e :: es =>
    if p.Enabled cfg e then
      match p.step cfg e with
      | .ok p => runEvents cfg p es
      | .error err => .error err
    else .error "not enabled"

theorem Run.trans {cfg : Config} {ok : Process → Event → Prop} {p q r : Process} (h : Run cfg ok p q)
    (h' : Run cfg ok q r) : Run cfg ok p r := by
  induction h' with
  | refl => exact h
  | step _ he hok hstep ih => exact ih.step he hok hstep

theorem run_of_runEvents {cfg : Config} {ok : Event → Prop} {p q : Process} {es : List Event}
    (hok : ∀ e ∈ es, ok e) (h : runEvents cfg p es = .ok q) : Run cfg (fun _ e => ok e) p q := by
  induction es generalizing p with
  | nil =>
    cases h
    exact .refl
  | cons e es ih =>
    rw [runEvents] at h
    split at h
    · next he =>
      split at h
      · next p' hstep =>
        exact (Run.refl.step he (hok e List.mem_cons_self) hstep).trans
          (ih (fun e' he' => hok e' (List.mem_cons_of_mem _ he')) h)
      · cases h
    · cases h

/-- Whether the event after the events is a panic. -/
def panicsAfter (cfg : Config) (p : Process) (es : List Event) (e : Event) : Bool :=
  match runEvents cfg p es with
  | .error _ => false
  | .ok q =>
    decide (q.Enabled cfg e) &&
      match q.step cfg e with
      | .ok _ => false
      | .error _ => true

theorem exists_panic {cfg : Config} {ok : Event → Prop} {p : Process} {es : List Event} {e : Event}
    (hok : ∀ e ∈ es, ok e) (h : panicsAfter cfg p es e = true) :
    ∃ q err, Run cfg (fun _ e => ok e) p q ∧ q.Enabled cfg e ∧ q.step cfg e = .error err := by
  unfold panicsAfter at h
  split at h
  · cases h
  · next q hq =>
    obtain ⟨he, hstep⟩ := Bool.and_eq_true_iff.1 h
    split at hstep
    · cases hstep
    · next err herr => exact ⟨q, err, run_of_runEvents hok hq, of_decide_eq_true he, herr⟩

namespace Sample

/-- A hash for the example: the block from its end, cut to 32 bytes. -/
def hashF (block : Bytes) : BitswapBlockLink := toLink block.reverse

/-- Blocks of 71 bytes, so two links in a full one, and one tag. -/
def config : Config where
  maxBlockSize := 71
  dataConfig := fun tag => if tag = 0 then some { maxSize := 1000, downloadTimeout := 600 } else none
  depthIndices := mkDepthIndices 2 100000
  valid := by decide

/-- A block with two links, to stand at nodes 1 and 2. -/
def innerBlock : Bytes := blockBytes [toLink [1], toLink [2]] [7, 7, 7, 7, 7]

/-- A root block that says 213 bytes: five nodes, of which 0 and 1 have two
links. Both its links lead to the same block. -/
def rootBlock : Bytes := blockBytes [hashF innerBlock, hashF innerBlock] [213, 0, 0, 0, 0]

/-- The root is asked for, and its two blocks come in. -/
def events : List Event :=
  [.kickStart (hashF rootBlock) 0 false, .deliver (hashF rootBlock) rootBlock, .next [hashF innerBlock],
    .deliver (hashF innerBlock) innerBlock]

/-- What an event delivers is known by its hash. -/
def Hashed (blocks : List Bytes) : Event → Prop
  | .deliver id block => id = hashF block ∧ block ∈ blocks
  | .kickStart .. | .next _ => True
  | _ => False

end Sample

end Mina.Bitswap
