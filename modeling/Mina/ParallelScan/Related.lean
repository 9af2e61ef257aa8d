/-
Trees that are related node by node.

The traversals of the nested trees treat all nodes of a level alike, so what
two functions do to related nodes they do to related trees: the free theorems
of the traversals, one for each of them.
-/
import Mina.Base.Agree
import Mina.ParallelScan.State

namespace Mina.ParallelScan.Tree

open Exn (Agree)

/-- The nodes of two trees of one shape are related, those of a level by the
relation of the level. -/
inductive Related : {M B M' B' : Type} → (Nat → M → M' → Prop) → (B → B' → Prop) → Tree M B → Tree M' B' → Prop
  | leaf {M B M' B' : Type} {rm : Nat → M → M' → Prop} {rb : B → B' → Prop} {d : B} {d' : B'} (h : rb d d') :
    Related rm rb (.leaf d) (.leaf d')
  | node {M B M' B' : Type} {rm : Nat → M → M' → Prop} {rb : B → B' → Prop} {depth : Nat} {v : M} {v' : M'}
    {sub : Tree (M × M) (B × B)} {sub' : Tree (M' × M') (B' × B')} (h : rm depth v v')
    (hsub : Related (fun i p p' => rm i p.1 p'.1 ∧ rm i p.2 p'.2) (fun p p' => rb p.1 p'.1 ∧ rb p.2 p'.2) sub sub') :
    Related rm rb (.node depth v sub) (.node depth v' sub')

variable {M B M' B' N C N' C' : Type} {rm : Nat → M → M' → Prop} {rb : B → B' → Prop} {t : Tree M B}
  {t' : Tree M' B'}

namespace Related

theorem refl {M B : Type} {rm : Nat → M → M → Prop} {rb : B → B → Prop} (hm : ∀ i v, rm i v v) (hb : ∀ d, rb d d)
    (t : Tree M B) : Related rm rb t t := by
  induction t with
  | leaf d => exact .leaf (hb d)
  | node depth v sub ih =>
    exact .node (hm depth v) (ih (fun i p => ⟨hm i p.1, hm i p.2⟩) fun p => ⟨hb p.1, hb p.2⟩)

theorem mapDepth {sm : Nat → N → N' → Prop} {sb : C → C' → Prop} (h : Related rm rb t t') {fMerge : Nat → M → N}
    {fMerge' : Nat → M' → N'} {fBase : B → C} {fBase' : B' → C'}
    (hm : ∀ i v v', rm i v v' → sm i (fMerge i v) (fMerge' i v')) (hb : ∀ d d', rb d d' → sb (fBase d) (fBase' d')) :
    Related sm sb (t.mapDepth fMerge fBase) (t'.mapDepth fMerge' fBase') := by
  induction h generalizing N C N' C' with
  | leaf h => exact .leaf (hb _ _ h)
  | node h _ ih =>
    exact .node (hm _ _ _ h) (ih (fun i p p' hp => ⟨hm i _ _ hp.1, hm i _ _ hp.2⟩)
      fun p p' hp => ⟨hb _ _ hp.1, hb _ _ hp.2⟩)

theorem map {sm : Nat → N → N' → Prop} {sb : C → C' → Prop} (h : Related rm rb t t') {fMerge : M → N}
    {fMerge' : M' → N'} {fBase : B → C} {fBase' : B' → C'}
    (hm : ∀ i v v', rm i v v' → sm i (fMerge v) (fMerge' v')) (hb : ∀ d d', rb d d' → sb (fBase d) (fBase' d')) :
    Related sm sb (t.map fMerge fBase) (t'.map fMerge' fBase') :=
  h.mapDepth hm hb

theorem mapDepth_eq (h : Related rm rb t t') {fMerge : Nat → M → N} {fMerge' : Nat → M' → N} {fBase : B → C}
    {fBase' : B' → C} (hm : ∀ i v v', rm i v v' → fMerge i v = fMerge' i v')
    (hb : ∀ d d', rb d d' → fBase d = fBase' d') : t.mapDepth fMerge fBase = t'.mapDepth fMerge' fBase' := by
  induction h generalizing N C with
  | leaf h => rw [Tree.mapDepth, Tree.mapDepth, hb _ _ h]
  | node h _ ih =>
    rw [Tree.mapDepth, Tree.mapDepth, hm _ _ _ h]
    refine congrArg _ (ih (fun i p p' hp => ?_) fun p p' hp => ?_)
    · rw [hm i _ _ hp.1, hm i _ _ hp.2]
    · rw [hb _ _ hp.1, hb _ _ hp.2]

theorem map_eq (h : Related rm rb t t') {fMerge : M → N} {fMerge' : M' → N} {fBase : B → C} {fBase' : B' → C}
    (hm : ∀ i v v', rm i v v' → fMerge v = fMerge' v') (hb : ∀ d d', rb d d' → fBase d = fBase' d') :
    t.map fMerge fBase = t'.map fMerge' fBase' :=
  h.mapDepth_eq hm hb

theorem foldDepth_eq {A : Type} (h : Related rm rb t t') {fMerge : Nat → A → M → A} {fMerge' : Nat → A → M' → A}
    {fBase : A → B → A} {fBase' : A → B' → A} (hm : ∀ i acc v v', rm i v v' → fMerge i acc v = fMerge' i acc v')
    (hb : ∀ acc d d', rb d d' → fBase acc d = fBase' acc d') (acc : A) :
    t.foldDepth fMerge fBase acc = t'.foldDepth fMerge' fBase' acc := by
  induction h generalizing acc with
  | leaf h => rw [Tree.foldDepth, Tree.foldDepth, hb _ _ _ h]
  | node h _ ih =>
    rw [Tree.foldDepth, Tree.foldDepth, hm _ _ _ _ h]
    refine ih (fun i acc p p' hp => ?_) (fun acc p p' hp => ?_) _
    · rw [hm i _ _ _ hp.1, hm i _ _ _ hp.2]
    · rw [hb _ _ _ hp.1, hb _ _ _ hp.2]

theorem updateSplit {D W R : Type} (h : Related rm rb t t') {fMerge : D → Nat → M → Exn (M × Option R)}
    {fMerge' : D → Nat → M' → Exn (M' × Option R)} {fBase : D → B → Exn B} {fBase' : D → B' → Exn B'}
    {weightMerge : M → W × W} {weightMerge' : M' → W × W}
    (hm : ∀ jobs i v v', rm i v v' →
      Agree (fun p p' => rm i p.1 p'.1 ∧ p.2 = p'.2) (fMerge jobs i v) (fMerge' jobs i v'))
    (hb : ∀ jobs d d', rb d d' → Agree rb (fBase jobs d) (fBase' jobs d'))
    (hw : ∀ i v v', rm i v v' → weightMerge v = weightMerge' v') (jobs : D) (updateLevel : Int)
    (jobsSplit : W × W → D → D × D) :
    Agree (fun p p' => Related rm rb p.1 p'.1 ∧ p.2 = p'.2)
      (t.updateSplit fMerge fBase weightMerge jobs updateLevel jobsSplit)
      (t'.updateSplit fMerge' fBase' weightMerge' jobs updateLevel jobsSplit) := by
  induction h generalizing D W R with
  | leaf h => exact (hb jobs _ _ h).andThen fun _ _ h => .ok ⟨.leaf h, rfl⟩
  | node h hsub ih =>
    refine (hm jobs _ _ _ h).andThen fun p p' hp => ?_
    obtain ⟨v, result⟩ := p
    obtain ⟨v', result'⟩ := p'
    obtain ⟨hv, rfl⟩ := hp
    refine Agree.andThen (R := fun p p' => Related _ _ p.1 p'.1 ∧ p.2 = p'.2) (.ite (.ok ⟨hsub, rfl⟩) ?_)
      fun p p' hp => .ok ⟨.node hv hp.1, rfl⟩
    rw [hw _ _ _ h]
    refine ih (fun b i p p' hp => ?_) (fun b p p' hp => ?_) (fun i p p' hp => ?_) _ _
    · refine (hm b.1 i _ _ hp.1).andThen fun l l' hl => ?_
      refine (hm b.2 i _ _ hp.2).andThen fun r r' hr => ?_
      rw [hl.2, hr.2]
      exact .ok ⟨⟨hl.1, hr.1⟩, rfl⟩
    · exact (hb b.1 _ _ hp.1).andThen fun l l' hl => (hb b.2 _ _ hp.2).andThen fun r r' hr => .ok ⟨hl, hr⟩
    · rw [hw i _ _ hp.1, hw i _ _ hp.2]

theorem updateAccumulate {D : Type} (h : Related rm rb t t') {fMerge : D × D → M → M × D}
    {fMerge' : D × D → M' → M' × D} {fBase : B → B × D} {fBase' : B' → B' × D}
    (hm : ∀ lst i v v', rm i v v' → rm i (fMerge lst v).1 (fMerge' lst v').1 ∧ (fMerge lst v).2 = (fMerge' lst v').2)
    (hb : ∀ d d', rb d d' → rb (fBase d).1 (fBase' d').1 ∧ (fBase d).2 = (fBase' d').2) :
    Related rm rb (t.updateAccumulate fMerge fBase).1 (t'.updateAccumulate fMerge' fBase').1 ∧
      (t.updateAccumulate fMerge fBase).2 = (t'.updateAccumulate fMerge' fBase').2 := by
  induction h generalizing D with
  | leaf h => exact ⟨.leaf (hb _ _ h).1, (hb _ _ h).2⟩
  | node h _ ih =>
    obtain ⟨hsub, hcounts⟩ := @ih (D × D)
      (fun b v => transpose (fMerge b.1 v.1, fMerge b.2 v.2))
      (fun b v => transpose (fMerge' b.1 v.1, fMerge' b.2 v.2))
      (fun d => transpose (fBase d.1, fBase d.2)) (fun d => transpose (fBase' d.1, fBase' d.2))
      (fun lst i p p' hp => ⟨⟨(hm lst.1 i _ _ hp.1).1, (hm lst.2 i _ _ hp.2).1⟩,
        Prod.ext (hm lst.1 i _ _ hp.1).2 (hm lst.2 i _ _ hp.2).2⟩)
      (fun p p' hp => ⟨⟨(hb _ _ hp.1).1, (hb _ _ hp.2).1⟩, Prod.ext (hb _ _ hp.1).2 (hb _ _ hp.2).2⟩)
    rw [Tree.updateAccumulate, Tree.updateAccumulate]
    dsimp only
    rw [← hcounts]
    exact ⟨.node (hm _ _ _ _ h).1 hsub, (hm _ _ _ _ h).2⟩

theorem mono {sm : Nat → M → M' → Prop} {sb : B → B' → Prop} (h : Related rm rb t t')
    (hm : ∀ i v v', rm i v v' → sm i v v') (hb : ∀ d d', rb d d' → sb d d') : Related sm sb t t' := by
  induction h with
  | leaf h => exact .leaf (hb _ _ h)
  | node h _ ih =>
    exact .node (hm _ _ _ h) (ih (fun i p p' hp => ⟨hm i _ _ hp.1, hm i _ _ hp.2⟩)
      fun p p' hp => ⟨hb _ _ hp.1, hb _ _ hp.2⟩)

/-- A tree is related to its image. -/
theorem map_right {sm : Nat → M → N' → Prop} {sb : B → C' → Prop} (h : Related rm rb t t') {fMerge : M' → N'}
    {fBase : B' → C'} (hm : ∀ i v v', rm i v v' → sm i v (fMerge v')) (hb : ∀ d d', rb d d' → sb d (fBase d')) :
    Related sm sb t (t'.map fMerge fBase) := by
  rw [Tree.map]
  suffices hdepth : ∀ {f : Nat → M' → N'}, (∀ i v v', rm i v v' → sm i v (f i v')) →
      Related sm sb t (t'.mapDepth f fBase) from hdepth hm
  intro f hf
  clear hm fMerge
  induction h generalizing N' C' with
  | leaf h => exact .leaf (hb _ _ h)
  | node h _ ih =>
    exact .node (hf _ _ _ h) (ih (fun p p' hp => ⟨hb _ _ hp.1, hb _ _ hp.2⟩)
      fun i p p' hp => ⟨hf i _ _ hp.1, hf i _ _ hp.2⟩)

theorem createLevels {M B : Type} {rm : Nat → M → M → Prop} {rb : B → B → Prop} {fmerge : Nat → M} {base : B}
    (hm : ∀ i, rm i (fmerge i) (fmerge i)) (hb : rb base base) (n d : Nat) :
    Related rm rb (State.createLevels n d fmerge base) (State.createLevels n d fmerge base) := by
  induction n generalizing d M B with
  | zero => exact .leaf hb
  | succ n ih => exact .node (hm d) (ih (fun i => ⟨hm i, hm i⟩) ⟨hb, hb⟩ (d + 1))

end Related

end Mina.ParallelScan.Tree
