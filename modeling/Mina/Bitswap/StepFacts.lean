/-
What one block makes of each root (`processDownloadedBlockStep`), root by
root: its schema, whether it is malformed (`step_malformed`), and the indices
listed for it at every child (`step_ixs`). The loop over the roots visits
each root once, so that the visits to other roots leave its results alone.
-/
import Mina.Bitswap.Downloader

namespace Mina.Bitswap

/-! ## The children of a block -/

namespace Children

/-- The indices listed for a root at a link. -/
def ixs (children : Children) (link : BitswapBlockLink) (root : Root) : List NodeIndex :=
  ((children.lookup link).bind fun np => np.lookup root).getD []

/-- No entry is empty. -/
def NoEmpty (children : Children) : Prop :=
  ∀ link np, children.lookup link = some np →
    np.keys ≠ [] ∧ ∀ root l, np.lookup root = some l → l ≠ []

theorem ixs_eq {children : Children} {link : BitswapBlockLink} {np : NodeParams}
    (h : children.lookup link = some np) (root : Root) : children.ixs link root = (np.lookup root).getD [] := by
  rw [ixs, h, Option.bind_some]

theorem ixs_empty (link : BitswapBlockLink) (root : Root) : (∅ : Children).ixs link root = [] := by
  rw [ixs, AList.lookup_empty, Option.bind_none, Option.getD_none]

theorem noEmpty_empty : NoEmpty (∅ : Children) := by
  intro link np h
  rw [AList.lookup_empty] at h
  cases h

theorem getD_lookup (children : Children) (link : BitswapBlockLink) (root : Root) :
    ((((children.lookup link).getD ∅ : NodeParams)).lookup root).getD [] = children.ixs link root := by
  rw [ixs]
  cases children.lookup link with
  | none => exact congrArg (Option.getD · []) (AList.lookup_empty root)
  | some np => rfl

theorem ixs_addChild (root_ : Root) (children : Children) (p : BitswapBlockLink × NodeIndex)
    (link : BitswapBlockLink) (root : Root) :
    Children.ixs (addChild root_ children p) link root =
      children.ixs link root ++ if root = root_ ∧ p.1 = link then [p.2] else [] := by
  unfold addChild
  by_cases hlink : p.1 = link
  · subst hlink
    rw [ixs_eq (AList.lookup_insert _)]
    by_cases hroot : root = root_
    · subst hroot
      rw [AList.lookup_insert, Option.getD_some, getD_lookup, if_pos ⟨rfl, rfl⟩]
    · rw [AList.lookup_insert_ne hroot, getD_lookup, if_neg (fun h => hroot h.1), List.append_nil]
  · rw [ixs, AList.lookup_insert_ne (Ne.symm hlink), if_neg (fun h => hlink h.2), List.append_nil, ixs]

theorem noEmpty_addChild {children : Children} (h : NoEmpty children) (root_ : Root)
    (p : BitswapBlockLink × NodeIndex) : NoEmpty (addChild root_ children p) := by
  intro link np hnp
  unfold addChild at hnp
  by_cases hlink : link = p.1
  · subst hlink
    rw [AList.lookup_insert, Option.some.injEq] at hnp
    subst hnp
    refine ⟨by rw [AList.keys_insert]; exact List.cons_ne_nil _ _, fun root l hl => ?_⟩
    by_cases hroot : root = root_
    · subst hroot
      rw [AList.lookup_insert, Option.some.injEq] at hl
      rw [← hl]
      exact List.append_ne_nil_of_right_ne_nil _ (List.cons_ne_nil _ _)
    · rw [AList.lookup_insert_ne hroot] at hl
      cases hc : children.lookup p.1 with
      | none =>
        rw [hc, Option.getD_none, AList.lookup_empty] at hl
        cases hl
      | some np =>
        rw [hc, Option.getD_some] at hl
        exact (h p.1 np hc).2 root l hl
  · rw [AList.lookup_insert_ne hlink] at hnp
    exact h link np hnp

theorem noEmpty_addChildren {children : Children} (h : NoEmpty children) (root_ : Root)
    (ps : List (BitswapBlockLink × NodeIndex)) : NoEmpty (ps.foldl (addChild root_) children) := by
  induction ps generalizing children with
  | nil => exact h
  | cons p ps ih => exact ih (noEmpty_addChild h root_ p)

/-- The indices among children of one root. -/
def at_ (ps : List (BitswapBlockLink × NodeIndex)) (link : BitswapBlockLink) : List NodeIndex :=
  (ps.filter fun p => decide (p.1 = link)).map (·.2)

theorem ixs_addChildren (root_ : Root) (children : Children) (ps : List (BitswapBlockLink × NodeIndex))
    (link : BitswapBlockLink) (root : Root) :
    Children.ixs (ps.foldl (addChild root_) children) link root =
      children.ixs link root ++ if root = root_ then at_ ps link else [] := by
  induction ps generalizing children with
  | nil => rw [List.foldl_nil, at_, List.filter_nil, List.map_nil, ite_self, List.append_nil]
  | cons p ps ih =>
    rw [List.foldl_cons, ih, ixs_addChild, List.append_assoc]
    congr 1
    by_cases hroot : root = root_
    · by_cases hlink : p.1 = link
      · simp [at_, hroot, hlink]
      · simp [at_, hroot, hlink]
    · rw [if_neg (fun h => hroot h.1), if_neg hroot, if_neg hroot, List.append_nil]

end Children

/-! ## The loop over the roots -/

/-- What a result says of one root. -/
@[ext]
structure RootView where
  malformed : Option Malformed
  state : Option RootDownloadState
  ixs : BitswapBlockLink → List NodeIndex

def StepResult.view (r : StepResult) (root : Root) : RootView where
  malformed := r.malformed.lookup root
  state := r.rootParams root
  ixs := fun link => r.children.ixs link root

/-- The result of a root that has state `rp`. -/
def RootStep.view (r : RootStep) (rp : RootDownloadState) : RootView where
  malformed := r.malformed
  state := some { rp with schema := r.schema }
  ixs := Children.at_ r.children

section

variable (cfg : Config) (size : Nat) (links : List BitswapBlockLink) (data : Bytes)

/-- A visit to another root. -/
theorem rootsStep_other (acc : StepResult) {e : Sigma fun _ : Root => List NodeIndex} {root : Root} (h : root ≠ e.1) :
    (rootsStep cfg size links data acc e).view root = acc.view root := by
  unfold rootsStep
  cases acc.rootParams e.1 with
  | none => rfl
  | some rp =>
    refine RootView.ext ?_ (Function.update_of_ne h _ _) (funext fun link => ?_)
    · dsimp only
      cases (rootStep cfg size links data rp e.2).malformed with
      | none => rfl
      | some err => exact AList.lookup_insert_ne h
    · exact (Children.ixs_addChildren ..).trans (by rw [if_neg h, List.append_nil]; rfl)

theorem rootsSteps_other {es : List (Sigma fun _ : Root => List NodeIndex)} {root : Root} (h : root ∉ es.keys)
    (acc : StepResult) : (es.foldl (rootsStep cfg size links data) acc).view root = acc.view root := by
  induction es generalizing acc with
  | nil => rfl
  | cons e es ih =>
    rw [List.keys_cons, List.mem_cons, not_or] at h
    exact (ih h.2 _).trans (rootsStep_other cfg size links data acc h.1)

/-- The visit to a root nothing is known of yet. -/
theorem rootsStep_own {acc : StepResult} {root : Root} {rp : RootDownloadState} (ixs : List NodeIndex)
    (h : acc.view root = ⟨none, some rp, fun _ => []⟩) :
    (rootsStep cfg size links data acc ⟨root, ixs⟩).view root = (rootStep cfg size links data rp ixs).view rp := by
  have hm : acc.malformed.lookup root = none := congrArg RootView.malformed h
  have hs : acc.rootParams root = some rp := congrArg RootView.state h
  have hc : (fun link => acc.children.ixs link root) = fun _ => [] := congrArg RootView.ixs h
  unfold rootsStep
  dsimp only
  rw [hs]
  refine RootView.ext ?_ (Function.update_self ..) (funext fun link => ?_)
  · simp only [StepResult.view, RootStep.view]
    cases (rootStep cfg size links data rp ixs).malformed with
    | none => exact hm
    | some err => exact AList.lookup_insert _
  · refine (Children.ixs_addChildren ..).trans ?_
    rw [if_pos rfl]
    exact congrArg (· ++ _) (congrFun hc link)

theorem noEmpty_rootsSteps (es : List (Sigma fun _ : Root => List NodeIndex)) {acc : StepResult}
    (h : Children.NoEmpty acc.children) :
    Children.NoEmpty (es.foldl (rootsStep cfg size links data) acc).children := by
  induction es generalizing acc with
  | nil => exact h
  | cons e es ih =>
    refine ih ?_
    unfold rootsStep
    cases acc.rootParams e.1 with
    | none => exact h
    | some rp => exact Children.noEmpty_addChildren h _ _

end

/-! ## The step, root by root -/

section

variable {cfg : Config} {params : NodeParams} {block : Bytes} {rootParams : Root → Option RootDownloadState}

theorem step_noEmpty :
    Children.NoEmpty (processDownloadedBlockStep cfg params block rootParams).children := by
  unfold processDownloadedBlockStep
  cases readBitswapBlock block with
  | error err => exact Children.noEmpty_empty
  | ok r => exact noEmpty_rootsSteps _ _ _ _ _ Children.noEmpty_empty

/-- A block that cannot be read. -/
theorem step_unreadable {err : String} (hread : readBitswapBlock block = .error err) :
    (processDownloadedBlockStep cfg params block rootParams).children = ∅ ∧
      (processDownloadedBlockStep cfg params block rootParams).rootParams = rootParams := by
  unfold processDownloadedBlockStep
  rw [hread]
  exact ⟨rfl, rfl⟩

variable {links : List BitswapBlockLink} {data : Bytes}

/-- Before a root is visited nothing is known of it. -/
theorem view_start (root : Root) :
    StepResult.view { children := ∅, malformed := ∅, rootParams := rootParams } root =
      ⟨none, rootParams root, fun _ => []⟩ := by
  refine RootView.ext ?_ rfl (funext fun link => Children.ixs_empty link root)
  simp only [StepResult.view]
  exact AList.lookup_empty root

/-- A root the block does not belong to. -/
theorem step_other (hread : readBitswapBlock block = .ok (links, data)) {root : Root} (h : root ∉ params) :
    (processDownloadedBlockStep cfg params block rootParams).view root = ⟨none, rootParams root, fun _ => []⟩ := by
  unfold processDownloadedBlockStep
  rw [hread]
  exact (rootsSteps_other cfg block.length links data h _).trans (view_start root)

/-- A root the block belongs to. -/
theorem step_own (hread : readBitswapBlock block = .ok (links, data)) {root : Root} {ixs : List NodeIndex}
    (hixs : params.lookup root = some ixs) {rp : RootDownloadState} (hrp : rootParams root = some rp) :
    (processDownloadedBlockStep cfg params block rootParams).view root =
      (rootStep cfg block.length links data rp ixs).view rp := by
  unfold processDownloadedBlockStep
  rw [hread]
  dsimp only
  have hmem : (⟨root, ixs⟩ : Sigma fun _ : Root => List NodeIndex) ∈ params.entries := AList.mem_lookup_iff.1 hixs
  obtain ⟨es₁, es₂, hes⟩ := List.append_of_mem hmem
  have hnodup : params.entries.keys.Nodup := params.keys_nodup
  rw [hes, List.keys_append, List.keys_cons] at hnodup
  have hnot := List.nodup_middle.1 hnodup
  rw [List.nodup_cons, List.mem_append, not_or] at hnot
  rw [hes, List.foldl_append, List.foldl_cons, rootsSteps_other cfg _ links data hnot.1.2]
  refine rootsStep_own cfg _ links data ixs ?_
  rw [rootsSteps_other cfg _ links data hnot.1.1, view_start, hrp]

end

/-! ## One root -/

section

variable {schema : BitswapBlockSchema} {di : DepthIndices} {size : Nat} {links : List BitswapBlockLink}

/-- The block has the shape predicted at an index. -/
def Fits (schema : BitswapBlockSchema) (size : Nat) (links : List BitswapBlockLink) (ix : NodeIndex) : Prop :=
  size = schema.blockSize ix ∧ links.length = schema.linkCount ix

/-- When every index fits, each has its children and the root is not malformed. -/
theorem indicesStep_fits {ixs : List NodeIndex} (h : ∀ ix ∈ ixs, Fits schema size links ix) :
    indicesStep schema di size links ixs = (ixs.flatMap (childrenAt di links), none) := by
  induction ixs with
  | nil => rfl
  | cons ix ixs ih =>
    obtain ⟨hsize, hcount⟩ := h ix List.mem_cons_self
    rw [indicesStep, if_neg (not_not_intro hsize), if_neg (not_not_intro hcount)]
    dsimp only
    rw [ih fun ix hix => h ix (List.mem_cons_of_mem _ hix)]
    rfl

/-- Children are only found when the first index fits and there are links. -/
theorem indicesStep_children {ixs : List NodeIndex} (h : (indicesStep schema di size links ixs).1 ≠ []) :
    links ≠ [] ∧ ∀ ix, ixs.head? = some ix → Fits schema size links ix := by
  constructor
  · intro hlinks
    refine h ?_
    clear h
    induction ixs with
    | nil => rfl
    | cons ix ixs ih =>
      rw [indicesStep]
      split
      · rfl
      · split
        · rfl
        · dsimp only
          rw [ih, childrenAt, hlinks]
          rfl
  · intro ix hix
    cases ixs with
    | nil => cases hix
    | cons ix' ixs =>
      cases hix
      rw [indicesStep] at h
      split at h
      · exact absurd rfl h
      · next hsize =>
        split at h
        · exact absurd rfl h
        · next hcount => exact ⟨not_not.1 hsize, not_not.1 hcount⟩

end

end Mina.Bitswap
