/-
Facts about the finger tree (`Mina.FSequence`): in every tree the module's
operations build, the cached measures count the elements below them
(`Tree.Exact`), and every operation is the list operation on the elements.

A tree at depth `n` holds nodes of nodes of elements. Everything below the
top level is therefore stated for elements that stand for lists: `g v` is
the list below the element `v`, `ok v` says that the measures cached inside
`v` are right, and `f v`, the measure the source passes down, is the length
of `g v` for every such `v` (`Measures`). At the next level down the same
holds of `Node.measure`, by definition of `Node.Exact`.
-/
import Mina.NetworkPool.FSequence

universe u

namespace Mina.FSequence

variable {e x : Type} {a r aL rL aR rR : Bool}

/-! ## Exact measures -/

/-- `f` measures an element by the length of the list it stands for. -/
def Measures (f : e → Nat) (g : e → List x) (ok : e → Prop) : Prop := ∀ v, ok v → f v = (g v).length

/-- The measure cached in a node counts the elements below it, as do those
cached further down. -/
structure Node.Exact (g : e → List x) (ok : e → Prop) (n : Node e) : Prop where
  measure : n.measure = (n.flat g).length
  below : ∀ v ∈ n.toDigit.toList, ok v

/-- Every measure cached in a tree, in its deep nodes and in the 2-3 nodes
of its fingers at every depth, counts the elements below it. -/
def Tree.Exact {e x : Type} (g : e → List x) (ok : e → Prop) : Tree e → Prop
  | .empty => True
  | .single a => ok a
  | .deep m pre middle suffix =>
    m = ((Tree.deep m pre middle suffix).flat g).length ∧ (∀ v ∈ pre.toList, ok v) ∧
      middle.Exact (Node.flat g) (Node.Exact g ok) ∧ ∀ v ∈ suffix.toList, ok v

section

variable {f : e → Nat} {g : e → List x} {ok : e → Prop}

theorem Digit.measure_eq (f : e → Nat) (d : Digit e a r) : d.measure f = (d.toList.map f).sum := by
  cases d <;> simp [measure, foldl] <;> omega

theorem sum_map_eq (hf : Measures f g ok) {l : List e} (hl : ∀ v ∈ l, ok v) :
    (l.map f).sum = (l.flatMap g).length := by
  induction l with
  | nil => rfl
  | cons v l ih =>
    have hv := hf v (hl v (by simp))
    have ih' := ih fun w hw => hl w (by simp [hw])
    simp [hv, ih']

theorem Digit.measure_flat (hf : Measures f g ok) {d : Digit e a r} (hd : ∀ v ∈ d.toList, ok v) :
    d.measure f = (d.toList.flatMap g).length := by
  rw [measure_eq, sum_map_eq hf hd]

theorem Node.measures : Measures Node.measure (Node.flat g) (Node.Exact g ok) := fun _ h => h.measure

theorem Tree.measure_flat (hf : Measures f g ok) {t : Tree e} (ht : t.Exact g ok) :
    t.measure f = (t.flat g).length := by
  cases t with
  | empty => rfl
  | single v => exact hf v ht
  | deep m pre middle suffix => exact ht.1

theorem Node.exact_mk3 (hf : Measures f g ok) {u v w : e} (hu : ok u) (hv : ok v) (hw : ok w) :
    (Node.mk3 f u v w).Exact g ok where
  measure := by simp [mk3, Node.measure, Node.flat, toDigit, hf u hu, hf v hv, hf w hw]; omega
  below := by simp [mk3, toDigit, hu, hv, hw]

theorem Tree.exact_mkDeep (hf : Measures f g ok) {pre : Digit e aL rL} {middle : Tree (Node e)}
    {suffix : Digit e aR rR} (hp : ∀ v ∈ pre.toList, ok v)
    (hm : middle.Exact (Node.flat g) (Node.Exact g ok)) (hs : ∀ v ∈ suffix.toList, ok v) :
    (mkDeep f pre middle suffix).Exact g ok := by
  refine ⟨?_, hp, hm, hs⟩
  rw [Digit.measure_flat hf hp, Digit.measure_flat hf hs, measure_flat Node.measures hm]
  simp [flat, Nat.add_assoc]

/-! ## The two ends -/

theorem Tree.exact_cons' (hf : Measures f g ok) {v : e} (hv : ok v) {t : Tree e} (ht : t.Exact g ok) :
    (t.cons' f v).Exact g ok := by
  induction t with
  | empty => exact hv
  | single u => exact exact_mkDeep hf (by simpa using hv) trivial (by simpa using (show ok u from ht))
  | deep m pre middle suffix ih =>
    obtain ⟨-, hp, hm, hs⟩ := ht
    cases pre with
    | four b c d i =>
      simp only [Digit.toList_four, List.mem_cons, List.not_mem_nil, or_false, forall_eq_or_imp,
        forall_eq] at hp
      obtain ⟨hb, hc, hd, hi⟩ := hp
      have hn := Node.exact_mk3 hf hc hd hi
      exact exact_mkDeep hf (by simp [hv, hb]) (ih Node.measures hn hm) hs
    | _ =>
      refine exact_mkDeep hf ?_ hm hs
      simp only [Digit.cons_toList, List.mem_cons, forall_eq_or_imp]
      exact ⟨hv, hp⟩

@[simp] theorem Tree.flat_snoc' (f : e → Nat) (g : e → List x) (t : Tree e) (v : e) :
    (t.snoc' f v).flat g = t.flat g ++ g v := by
  induction t with
  | empty => simp [snoc', flat]
  | single => simp [snoc', flat]
  | deep m pre middle suffix ih => cases suffix <;> simp [snoc', flat, ih]

theorem Tree.exact_snoc' (hf : Measures f g ok) {v : e} (hv : ok v) {t : Tree e} (ht : t.Exact g ok) :
    (t.snoc' f v).Exact g ok := by
  induction t with
  | empty => exact hv
  | single u => exact exact_mkDeep hf (by simpa using (show ok u from ht)) trivial (by simpa using hv)
  | deep m pre middle suffix ih =>
    obtain ⟨-, hp, hm, hs⟩ := ht
    cases suffix with
    | four b c d i =>
      simp only [Digit.toList_four, List.mem_cons, List.not_mem_nil, or_false, forall_eq_or_imp,
        forall_eq] at hs
      obtain ⟨hb, hc, hd, hi⟩ := hs
      have hn := Node.exact_mk3 hf hb hc hd
      exact exact_mkDeep hf hp (ih Node.measures hn hm) (by simp [hv, hi])
    | _ =>
      refine exact_mkDeep hf hp hm ?_
      simp only [Digit.snoc_toList, List.mem_append, List.mem_singleton]
      rintro w (hw | rfl)
      · exact hs w hw
      · exact hv

theorem Tree.exact_treeOfDigit (hf : Measures f g ok) {d : Digit e a r} (hd : ∀ v ∈ d.toList, ok v) :
    (treeOfDigit f d).Exact g ok := by
  rw [treeOfDigit, Digit.foldr_eq]
  revert hd
  induction d.toList with
  | nil => exact fun _ => trivial
  | cons v l ih =>
    intro hd
    exact exact_cons' hf (hd v (by simp)) (ih fun w hw => hd w (by simp [hw]))

theorem Tree.exact_uncons' (hf : Measures f g ok) {t t' : Tree e} {v : e}
    (h : t.uncons' f = some (v, t')) (ht : t.Exact g ok) : ok v ∧ t'.Exact g ok := by
  induction t with
  | empty => simp [uncons'] at h
  | single =>
    simp only [uncons', Option.some.injEq, Prod.mk.injEq] at h
    obtain ⟨rfl, rfl⟩ := h
    exact ⟨ht, trivial⟩
  | deep m pre middle suffix ih =>
    obtain ⟨-, hp, hm, hs⟩ := ht
    cases pre with
    | one u =>
      simp only [uncons'] at h
      split at h
      · simp only [Option.some.injEq, Prod.mk.injEq] at h
        obtain ⟨rfl, rfl⟩ := h
        exact ⟨hp u (by simp), exact_treeOfDigit hf hs⟩
      · next node rest hmid =>
        simp only [Option.some.injEq, Prod.mk.injEq] at h
        obtain ⟨rfl, rfl⟩ := h
        obtain ⟨hn, hr⟩ := ih Node.measures hmid hm
        exact ⟨hp u (by simp), exact_mkDeep hf hn.below hr hs⟩
    | _ =>
      simp only [uncons', Digit.uncons, Option.some.injEq, Prod.mk.injEq] at h
      obtain ⟨rfl, rfl⟩ := h
      exact ⟨hp _ (by simp), exact_mkDeep hf (fun w hw => hp w (by simp at hw; simp [hw])) hm hs⟩

theorem Tree.unsnoc'_eq_none {t : Tree e} (h : t.unsnoc' f = none) : t = .empty := by
  cases t with
  | empty => rfl
  | single => simp [unsnoc'] at h
  | deep m pre middle suffix =>
    cases suffix <;> simp only [unsnoc', reduceCtorEq] at h
    split at h <;> simp at h

theorem Tree.flat_unsnoc' {t t' : Tree e} {v : e} (h : t.unsnoc' f = some (t', v)) :
    t.flat g = t'.flat g ++ g v := by
  induction t with
  | empty => simp [unsnoc'] at h
  | single =>
    simp only [unsnoc', Option.some.injEq, Prod.mk.injEq] at h
    obtain ⟨rfl, rfl⟩ := h
    simp [flat]
  | deep m pre middle suffix ih =>
    cases suffix with
    | one u =>
      simp only [unsnoc'] at h
      split at h
      · next hm =>
        simp only [Option.some.injEq, Prod.mk.injEq] at h
        obtain ⟨rfl, rfl⟩ := h
        simp [flat, unsnoc'_eq_none hm]
      · next rest node hm =>
        simp only [Option.some.injEq, Prod.mk.injEq] at h
        obtain ⟨rfl, rfl⟩ := h
        simp [flat, ih hm, Node.flat]
    | _ =>
      simp only [unsnoc', Digit.unsnoc, Option.some.injEq, Prod.mk.injEq] at h
      obtain ⟨rfl, rfl⟩ := h
      simp [flat]

theorem Tree.exact_unsnoc' (hf : Measures f g ok) {t t' : Tree e} {v : e}
    (h : t.unsnoc' f = some (t', v)) (ht : t.Exact g ok) : ok v ∧ t'.Exact g ok := by
  induction t with
  | empty => simp [unsnoc'] at h
  | single =>
    simp only [unsnoc', Option.some.injEq, Prod.mk.injEq] at h
    obtain ⟨rfl, rfl⟩ := h
    exact ⟨ht, trivial⟩
  | deep m pre middle suffix ih =>
    obtain ⟨-, hp, hm, hs⟩ := ht
    cases suffix with
    | one u =>
      simp only [unsnoc'] at h
      split at h
      · simp only [Option.some.injEq, Prod.mk.injEq] at h
        obtain ⟨rfl, rfl⟩ := h
        exact ⟨hs u (by simp), exact_treeOfDigit hf hp⟩
      · next rest node hmid =>
        simp only [Option.some.injEq, Prod.mk.injEq] at h
        obtain ⟨rfl, rfl⟩ := h
        obtain ⟨hn, hr⟩ := ih Node.measures hmid hm
        exact ⟨hs u (by simp), exact_mkDeep hf hp hr hn.below⟩
    | _ =>
      simp only [unsnoc', Digit.unsnoc, Option.some.injEq, Prod.mk.injEq] at h
      obtain ⟨rfl, rfl⟩ := h
      exact ⟨hs _ (by simp), exact_mkDeep hf hp hm (fun w hw => hs w (by simp at hw ⊢; grind))⟩

/-! ## Splits -/

/-- `l` cut at the first element that takes the running total `acc` of
measures to `target`. -/
structure Cut (f : e → Nat) (target acc : Nat) (l lhs : List e) (m : e) (rhs : List e) : Prop where
  parts : l = lhs ++ m :: rhs
  before : acc + (lhs.map f).sum < target
  reached : target ≤ acc + (lhs.map f).sum + f m

theorem Cut.cons {target acc : Nat} {l lhs rhs : List e} {m v : e}
    (h : Cut f target (acc + f v) l lhs m rhs) : Cut f target acc (v :: l) (v :: lhs) m rhs where
  parts := by simp [h.parts]
  before := by have := h.before; simp only [List.map_cons, List.sum_cons]; omega
  reached := by have := h.reached; simp only [List.map_cons, List.sum_cons]; omega

theorem Cut.head {target acc : Nat} {l : List e} {v : e} (h : acc < target) (h' : target ≤ acc + f v) :
    Cut f target acc (v :: l) [] v l where
  parts := rfl
  before := by simpa using h
  reached := by simpa using h'

/-- The elements of a digit that a split may have left empty. -/
def Digit.optToList : Option (Digit.AnyAR e) → List e
  | none => []
  | some dig => dig.2.2.toList

/-- What `Digit.splitAddable` answers: the cut of the digit, with a left part
small enough to stay addable when one element is put back in front. -/
def Digit.AddableCut (f : e → Nat) (target acc : Nat) (t : Digit e true r) : Prop :=
  ∃ lhs m rhs, splitAddable f target acc t = .ok (lhs, m, rhs) ∧
    Cut f target acc t.toList (optToList (lhs.map broadenAnyR)) m (optToList (rhs.map broadenAnyR)) ∧
    (optToList (lhs.map broadenAnyR)).length < t.toList.length

theorem Digit.objMagic_cons (v : e) (d : Digit e true r) (h : d.toList.length ≤ 2) :
    ∃ d', objMagic (d.cons v) = .ok d' ∧ d'.toList = v :: d.toList := by
  cases d with
  | three => simp at h
  | _ => exact ⟨_, rfl, rfl⟩

theorem Digit.length_addable (d : Digit e true r) : d.toList.length ≤ 3 := by
  cases d <;> simp

/-- One step of the recursion. The digit is addable and its tail is one
shorter, which is what makes the source's `Obj.magic` sound. -/
theorem Digit.addableCut_step {target acc : Nat} (t : Digit e true true) (hacc : acc < target)
    (ih : acc + f t.uncons.1 < target → AddableCut f target (acc + f t.uncons.1) t.uncons.2.2) :
    AddableCut f target acc t := by
  have hl := uncons_toList t
  have h3 := length_addable t
  rw [AddableCut, splitAddable]
  split
  next head tail hu =>
  rw [hu] at hl ih
  simp only at hl ih
  by_cases hge : acc + f head ≥ target
  · rw [if_pos hge]
    refine ⟨_, _, _, rfl, ?_, ?_⟩
    · rw [hl]; exact Cut.head hacc hge
    · simp [hl, optToList]
  · obtain ⟨lhs, m, rhs, hs, hcut, hlen⟩ := ih (by omega)
    rw [if_neg hge, hs]
    have h2 : tail.2.toList.length ≤ 2 := by simp [hl] at h3; omega
    cases lhs with
    | none =>
      refine ⟨_, _, _, rfl, ?_, ?_⟩
      · rw [hl]; exact hcut.cons
      · simp [hl, optToList, broadenAnyR, List.length_pos_iff, toList_ne_nil]
    | some lhs =>
      obtain ⟨d', hd, hd'⟩ := objMagic_cons head lhs.2 (by
        simp only [Option.map_some, optToList, broadenAnyR] at hlen; omega)
      refine ⟨some ⟨_, d'⟩, m, rhs, ?_, ?_, ?_⟩
      · simp [bind, Except.bind, hd]
      · rw [hl]
        have := hcut.cons
        simpa [optToList, broadenAnyR, hd'] using this
      · simpa [hl, optToList, broadenAnyR, hd'] using hlen

theorem Digit.addableCut {target acc : Nat} (t : Digit e true r) (hacc : acc < target)
    (hreach : target ≤ acc + t.measure f) : AddableCut f target acc t := by
  have hone : ∀ acc (v : e), acc < target → target ≤ acc + f v →
      AddableCut f target acc (Digit.one v) := by
    intro acc v h h'
    refine ⟨none, v, none, ?_, ?_, ?_⟩
    · rw [splitAddable, if_pos h']
    · exact Cut.head h h'
    · simp [optToList]
  have htwo : ∀ acc (u v : e), acc < target → target ≤ acc + f u + f v →
      AddableCut f target acc (Digit.two u v) := fun acc u v h h' =>
    addableCut_step _ h fun h'' => hone _ _ h'' h'
  cases t with
  | one v => exact hone _ _ hacc (by simpa [measure, foldl] using hreach)
  | two u v => exact htwo _ _ _ hacc (by simp [measure, foldl] at hreach; omega)
  | three u v w =>
    exact addableCut_step _ hacc fun h => htwo _ _ _ h (by
      simp [measure, foldl] at hreach; simp [uncons]; omega)

/-- A digit that reaches the target is cut there. -/
theorem Digit.split_cut (t : Digit e a r) {target : Nat} (acc : Nat) (hacc : acc < target)
    (hreach : target ≤ acc + t.measure f) :
    ∃ lhs m rhs, t.split f target acc = .ok (lhs, m, rhs) ∧
      Cut f target acc t.toList (optToList lhs) m (optToList rhs) := by
  have haddable : ∀ {r} (t : Digit e true r), target ≤ acc + t.measure f →
      ∃ lhs m rhs, t.split f target acc = .ok (lhs, m, rhs) ∧
        Cut f target acc t.toList (optToList lhs) m (optToList rhs) := by
    intro r t hreach
    obtain ⟨lhs, m, rhs, hs, hcut, -⟩ := addableCut t hacc hreach
    exact ⟨_, _, _, by simp [split, hs, bind, Except.bind], hcut⟩
  cases t with
  | one v => exact haddable _ hreach
  | two u v => exact haddable _ hreach
  | three u v w => exact haddable _ hreach
  | four s u v w =>
    by_cases hge : acc + f s ≥ target
    · exact ⟨_, _, _, if_pos hge, Cut.head hacc hge⟩
    · have htail : target ≤ acc + f s + (Digit.three u v w).measure f := by
        simp [measure, foldl] at hreach ⊢; omega
      obtain ⟨lhs, m, rhs, hs, hcut, -⟩ := addableCut (Digit.three u v w) (by omega) htail
      cases lhs with
      | none => exact ⟨some ⟨_, _, .one s⟩, _, _, (if_neg hge).trans (by simp only [hs]; rfl), hcut.cons⟩
      | some lhs =>
        refine ⟨_, _, _, (if_neg hge).trans (by simp only [hs]; rfl), ?_⟩
        have := hcut.cons
        simpa [optToList, broadenAnyA, broadenAnyR] using this

/-- Everything the cut digit's parts hold was in the digit. -/
theorem Cut.all {target acc : Nat} {l lhs rhs : List e} {m : e} (h : Cut f target acc l lhs m rhs)
    (hl : ∀ v ∈ l, ok v) : (∀ v ∈ lhs, ok v) ∧ ok m ∧ ∀ v ∈ rhs, ok v := by
  rw [h.parts] at hl
  exact ⟨fun v hv => hl v (by simp [hv]), hl m (by simp), fun v hv => hl v (by simp [hv])⟩

@[simp] theorem Tree.flat_treeOfDigitOption (o : Option (Digit.AnyAR e)) :
    (treeOfDigitOption f o).flat g = (Digit.optToList o).flatMap g := by
  cases o with
  | none => rfl
  | some dig => exact flat_treeOfDigit f g dig.2.2

theorem Tree.exact_treeOfDigitOption (hf : Measures f g ok) {o : Option (Digit.AnyAR e)}
    (ho : ∀ v ∈ Digit.optToList o, ok v) : (treeOfDigitOption f o).Exact g ok := by
  cases o with
  | none => trivial
  | some dig => exact exact_treeOfDigit hf ho

@[simp] theorem Tree.flat_deepNoSuffix (pre : Digit e a r) (middle : Tree (Node e))
    (o : Option (Digit.AnyAR e)) :
    (deepNoSuffix f pre middle o).flat g =
      pre.toList.flatMap g ++ middle.flat (Node.flat g) ++ (Digit.optToList o).flatMap g := by
  cases o with
  | some dig => simp [deepNoSuffix, Digit.optToList]
  | none =>
    rw [deepNoSuffix]
    split
    · next h => simp [unsnoc'_eq_none h, flat, Digit.optToList]
    · next liat deah h => simp [flat_unsnoc' h, Digit.optToList, Node.flat]

theorem Tree.exact_deepNoSuffix (hf : Measures f g ok) {pre : Digit e a r} {middle : Tree (Node e)}
    {o : Option (Digit.AnyAR e)} (hp : ∀ v ∈ pre.toList, ok v)
    (hm : middle.Exact (Node.flat g) (Node.Exact g ok)) (ho : ∀ v ∈ Digit.optToList o, ok v) :
    (deepNoSuffix f pre middle o).Exact g ok := by
  cases o with
  | some dig => exact exact_mkDeep hf hp hm ho
  | none =>
    rw [deepNoSuffix]
    split
    · exact exact_treeOfDigit hf hp
    · next liat deah h =>
      obtain ⟨hd, hl⟩ := exact_unsnoc' Node.measures h hm
      exact exact_mkDeep hf hp hl hd.below

@[simp] theorem Tree.flat_deepNoPrefix (middle : Tree (Node e)) (suffix : Digit e a r)
    (o : Option (Digit.AnyAR e)) :
    (deepNoPrefix f middle suffix o).flat g =
      (Digit.optToList o).flatMap g ++ middle.flat (Node.flat g) ++ suffix.toList.flatMap g := by
  cases o with
  | some dig => simp [deepNoPrefix, Digit.optToList]
  | none =>
    rw [deepNoPrefix]
    split
    · next h => simp [uncons'_eq_none h, flat, Digit.optToList]
    · next head tail h => simp [flat_uncons' h, Digit.optToList, Node.flat]

theorem Tree.exact_deepNoPrefix (hf : Measures f g ok) {middle : Tree (Node e)} {suffix : Digit e a r}
    {o : Option (Digit.AnyAR e)} (hm : middle.Exact (Node.flat g) (Node.Exact g ok))
    (hs : ∀ v ∈ suffix.toList, ok v) (ho : ∀ v ∈ Digit.optToList o, ok v) :
    (deepNoPrefix f middle suffix o).Exact g ok := by
  cases o with
  | some dig => exact exact_mkDeep hf ho hm hs
  | none =>
    rw [deepNoPrefix]
    split
    · exact exact_treeOfDigit hf hs
    · next head tail h =>
      obtain ⟨hh, ht⟩ := exact_uncons' Node.measures h hm
      exact exact_mkDeep hf hh.below ht hs

/-- A tree cut at the first of its elements that takes the running total
`acc` of elements below to `target`. -/
structure Tree.Cut (g : e → List x) (ok : e → Prop) (target acc : Nat) (t lhs : Tree e) (m : e)
    (rhs : Tree e) : Prop where
  parts : t.flat g = lhs.flat g ++ (g m ++ rhs.flat g)
  before : acc + (lhs.flat g).length < target
  reached : target ≤ acc + (lhs.flat g).length + (g m).length
  left : lhs.Exact g ok
  middle : ok m
  right : rhs.Exact g ok

/-- A digit's cut, in elements below instead of measures. -/
theorem Cut.flat (hf : Measures f g ok) {target acc : Nat} {l lhs rhs : List e} {m : e}
    (h : FSequence.Cut f target acc l lhs m rhs) (hl : ∀ v ∈ l, ok v) :
    l.flatMap g = lhs.flatMap g ++ (g m ++ rhs.flatMap g) ∧
      acc + (lhs.flatMap g).length < target ∧
      target ≤ acc + (lhs.flatMap g).length + (g m).length := by
  obtain ⟨hlhs, hm, -⟩ := h.all hl
  have h1 := h.before
  have h2 := h.reached
  rw [sum_map_eq hf hlhs] at h1 h2
  rw [hf m hm] at h2
  exact ⟨by rw [h.parts]; simp, h1, h2⟩

/-- `Tree.split` cuts the tree where the running total reaches the target. -/
theorem Tree.split_cut (hf : Measures f g ok) {t : Tree e} (ht : t.Exact g ok) {target : Nat} (acc : Nat)
    (hacc : acc < target) (hreach : target ≤ acc + (t.flat g).length) :
    ∃ lhs m rhs, t.split f target acc = .ok (lhs, m, rhs) ∧ Cut g ok target acc t lhs m rhs := by
  induction t generalizing acc with
  | empty => simp [flat] at hreach; omega
  | single v =>
    refine ⟨.empty, v, .empty, ?_, ?_⟩
    · rw [split, if_pos (by rw [hf v ht]; exact hreach)]
    · exact ⟨by simp [flat], by simpa [flat] using hacc, by simpa [flat] using hreach, trivial, ht, trivial⟩
  | deep m pre middle suffix ih =>
    obtain ⟨-, hp, hm, hs⟩ := ht
    have hpre := Digit.measure_flat hf hp
    have hmid := measure_flat Node.measures hm
    have hsuf := Digit.measure_flat hf hs
    simp only [flat, List.length_append] at hreach
    rw [split]
    simp only
    by_cases h1 : acc + pre.measure f ≥ target
    -- The cut is in the left finger.
    · obtain ⟨dl, v, dr, hd, hcut⟩ := pre.split_cut acc hacc h1
      obtain ⟨hlhs, hv, hrhs⟩ := hcut.all hp
      obtain ⟨hparts, hbefore, hreached⟩ := Cut.flat hf hcut hp
      rw [if_pos h1, hd]
      refine ⟨_, _, _, rfl, ?_, ?_, ?_, exact_treeOfDigitOption hf hlhs, hv, exact_deepNoPrefix hf hm hs hrhs⟩
      · simp [flat, hparts]
      · simpa using hbefore
      · simpa using hreached
    rw [if_neg h1]
    by_cases h2 : acc + pre.measure f + middle.measure Node.measure ≥ target
    -- The cut is below a node of the middle tree, which is cut in turn.
    · obtain ⟨lhs, node, rhs, hsplit, hcut⟩ := ih Node.measures hm (acc + pre.measure f) (by omega) (by omega)
      have hlhs := measure_flat Node.measures hcut.left
      have hnode := hcut.middle
      have hb := hcut.before
      have hr := hcut.reached
      have hnm : node.toDigit.measure f = (node.flat g).length := Digit.measure_flat hf hnode.below
      obtain ⟨dl, v, dr, hd, hdcut⟩ := node.toDigit.split_cut (f := f)
        (lhs.measure Node.measure + (acc + pre.measure f)) (show _ < target by omega) (by omega)
      obtain ⟨hdl, hv, hdr⟩ := hdcut.all hnode.below
      obtain ⟨hparts, hbefore, hreached⟩ := Cut.flat hf hdcut hnode.below
      rw [if_pos h2, hsplit]
      simp only [Node.splitToDigits, hd]
      refine ⟨_, _, _, rfl, ?_, ?_, ?_, exact_deepNoSuffix hf hp hcut.left hdl, hv,
        exact_deepNoPrefix hf hcut.right hs hdr⟩
      · simp only [flat, hcut.parts, Node.flat, hparts, flat_deepNoSuffix, flat_deepNoPrefix,
          List.append_assoc]
      · simp only [flat_deepNoSuffix, List.length_append]; omega
      · simp only [flat_deepNoSuffix, List.length_append]; omega
    -- The cut is in the right finger.
    · have h3 : acc + pre.measure f + middle.measure Node.measure + suffix.measure f ≥ target := by omega
      obtain ⟨dl, v, dr, hd, hcut⟩ := suffix.split_cut _ (Nat.lt_of_not_le h2) h3
      obtain ⟨hdl, hv, hdr⟩ := hcut.all hs
      obtain ⟨hparts, hbefore, hreached⟩ := Cut.flat hf hcut hs
      rw [if_neg h2, if_pos h3, hd]
      refine ⟨_, _, _, rfl, ?_, ?_, ?_, exact_deepNoSuffix hf hp hm hdl, hv, exact_treeOfDigitOption hf hdr⟩
      · simp [flat, hparts]
      · simp only [flat_deepNoSuffix, List.length_append]; omega
      · simp only [flat_deepNoSuffix, List.length_append]; omega

end

/-! ## The top level -/

/-- `Tree.Exact` at the top level, where an element stands for itself. -/
abbrev Tree.TopExact (t : Tree e) : Prop := t.Exact (fun v => [v]) fun _ => True

theorem measures_one : Measures (one : e → Nat) (fun v => [v]) fun _ => True := fun _ _ => rfl

theorem elems_unsnoc {t t' : Tree e} {v : e} (h : unsnoc t = some (t', v)) : elems t = elems t' ++ [v] :=
  Tree.flat_unsnoc' h

theorem elems_eq_nil_of_uncons {t : Tree e} (h : uncons t = none) : elems t = [] := by
  rw [Tree.uncons'_eq_none h]; rfl

theorem elems_eq_nil_of_unsnoc {t : Tree e} (h : unsnoc t = none) : elems t = [] := by
  rw [Tree.unsnoc'_eq_none h]; rfl

theorem toList_eq_elems (t : Tree e) : toList t = elems t := by
  rw [toList]
  fun_induction toSeq t with
  | case1 t h => exact (elems_eq_nil_of_uncons h).symm
  | case2 t head tail h ih => rw [ih, elems_uncons h]

theorem foldl_eq {acc : Type u} (f : acc → e → acc) (z : acc) (t : Tree e) :
    foldl f z t = (toList t).foldl f z := by
  rw [toList_eq_elems]
  fun_induction foldl f z t with
  | case1 z t h => rw [elems_eq_nil_of_uncons h]; rfl
  | case2 z t head tail h ih => rw [ih, elems_uncons h]; rfl

theorem foldr_eq {acc : Type u} (f : e → acc → acc) (z : acc) (t : Tree e) :
    foldr f z t = (toList t).foldr f z := by
  rw [toList_eq_elems]
  fun_induction foldr f z t with
  | case1 t h => rw [elems_eq_nil_of_uncons h]; rfl
  | case2 t head tail h ih => rw [ih, elems_uncons h]; rfl

theorem toList_cons (v : e) (t : Tree e) : toList (cons v t) = v :: toList t := by
  simp [toList_eq_elems, elems, cons]

theorem toList_snoc (t : Tree e) (v : e) : toList (snoc t v) = toList t ++ [v] := by
  simp [toList_eq_elems, elems, snoc]

theorem toList_uncons (t : Tree e) :
    (uncons t).map (fun p => (p.1, toList p.2)) = (toList t).head?.map fun v => (v, (toList t).tail) := by
  simp only [toList_eq_elems]
  cases h : uncons t with
  | none => simp [elems_eq_nil_of_uncons h]
  | some p => simp [elems_uncons h]

theorem toList_unsnoc (t : Tree e) :
    (unsnoc t).map (fun p => (toList p.1, p.2)) =
      (toList t).getLast?.map fun v => ((toList t).dropLast, v) := by
  simp only [toList_eq_elems]
  cases h : unsnoc t with
  | none => simp [elems_eq_nil_of_unsnoc h]
  | some p => simp [elems_unsnoc h]

/-- Both trees run out in the case that is left to `false`. -/
theorem equal_eq_false (eqInner : e → e → Bool) (xs ys : Tree e) : equal eqInner xs ys = false := by
  fun_induction equal eqInner xs ys with
  | case1 xs ys x xsTail h y ysTail _ ih => rw [ih, Bool.and_false]
  | case2 => rfl

/-- **`equal` decides equality of contents only on trees whose contents
differ.** Whatever the trees, it is false, so it is true exactly for equal
contents if and only if the contents are not equal. -/
theorem equal_decides_iff (eqInner : e → e → Bool) (xs ys : Tree e) :
    (equal eqInner xs ys = true ↔ List.Forall₂ (fun x y => eqInner x y = true) (toList xs) (toList ys)) ↔
      ¬ List.Forall₂ (fun x y => eqInner x y = true) (toList xs) (toList ys) := by
  rw [equal_eq_false]
  constructor
  · intro h hcontents
    cases h.2 hcontents
  · intro h
    exact ⟨fun heq => Bool.noConfusion heq, fun hcontents => absurd hcontents h⟩

/-- A tree is not even equal to itself. -/
theorem equal_self_two :
    equal (fun a b : Nat => a == b) (cons 1 (singleton 2)) (cons 1 (singleton 2)) = false ∧
      List.Forall₂ (fun a b => (a == b) = true) (toList (cons 1 (singleton 2))) (toList (cons 1 (singleton 2))) := by
  refine ⟨equal_eq_false _ _ _, ?_⟩
  rw [toList_eq_elems]
  exact .cons rfl (.cons rfl .nil)

theorem Tree.TopExact.cons {t : Tree e} (h : t.TopExact) (v : e) : (FSequence.cons v t).TopExact :=
  exact_cons' measures_one trivial h

theorem Tree.TopExact.snoc {t : Tree e} (h : t.TopExact) (v : e) : (FSequence.snoc t v).TopExact :=
  exact_snoc' measures_one trivial h

theorem length_eq {t : Tree e} (h : t.TopExact) : length t = (toList t).length := by
  rw [toList_eq_elems]
  exact Tree.measure_flat measures_one h

/-- `splitAt` takes and drops, and never raises. -/
theorem splitAt_ok {t : Tree e} (ht : t.TopExact) (i : Nat) :
    ∃ l r, splitAt t i = .ok (l, r) ∧ toList l = (toList t).take i ∧ toList r = (toList t).drop i ∧
      l.TopExact ∧ r.TopExact := by
  simp only [toList_eq_elems]
  by_cases hempty : t = .empty
  · subst hempty
    exact ⟨_, _, rfl, by simp [elems, Tree.flat, empty], by simp [elems, Tree.flat, empty], trivial, trivial⟩
  rw [splitAt.eq_2 _ _ hempty]
  by_cases h0 : i = 0
  · subst h0
    exact ⟨_, _, if_pos rfl, by simp [elems, Tree.flat, empty], by simp, trivial, ht⟩
  rw [if_neg h0]
  have hmeasure : t.measure one = (elems t).length := Tree.measure_flat measures_one ht
  by_cases hi : t.measure one ≥ i
  · obtain ⟨lhs, m, rhs, hs, hcut⟩ := Tree.split_cut measures_one ht 0
      (show 0 < i by omega) (by rw [Nat.zero_add]; exact hmeasure ▸ hi)
    have hparts : elems t = (elems lhs ++ [m]) ++ elems rhs := by
      rw [List.append_assoc]; exact hcut.parts
    have hlen : (elems lhs ++ [m]).length = i := by
      have h1 := hcut.before
      have h2 := hcut.reached
      simp only [List.length_append, List.length_singleton, elems] at h1 h2 ⊢
      omega
    have hsnoc : elems (snoc lhs m) = elems lhs ++ [m] := by simp [elems, snoc]
    refine ⟨snoc lhs m, rhs, ?_, ?_, ?_, Tree.TopExact.snoc hcut.left m, hcut.right⟩
    · rw [if_pos hi, hs]; rfl
    · rw [hsnoc, hparts, ← hlen, List.take_left]
    · rw [hparts, ← hlen, List.drop_left]
  · refine ⟨_, _, if_neg hi, ?_, ?_, ht, trivial⟩
    · rw [List.take_of_length_le (by omega)]
    · rw [List.drop_eq_nil_of_le (by omega)]; rfl

/-- The trees the module's operations build. -/
inductive Built : Tree e → Prop where
  | empty : Built empty
  | singleton (v : e) : Built (singleton v)
  | cons {t : Tree e} (v : e) : Built t → Built (cons v t)
  | snoc {t : Tree e} (v : e) : Built t → Built (snoc t v)
  | uncons {t t' : Tree e} {v : e} : Built t → uncons t = some (v, t') → Built t'
  | unsnoc {t t' : Tree e} {v : e} : Built t → unsnoc t = some (t', v) → Built t'
  | splitAtLeft {t l r : Tree e} {i : Nat} : Built t → splitAt t i = .ok (l, r) → Built l
  | splitAtRight {t l r : Tree e} {i : Nat} : Built t → splitAt t i = .ok (l, r) → Built r

theorem Built.exact {t : Tree e} (h : Built t) : t.TopExact := by
  induction h with
  | empty => trivial
  | singleton => trivial
  | cons v _ ih => exact ih.cons v
  | snoc v _ ih => exact ih.snoc v
  | uncons _ hu ih => exact (Tree.exact_uncons' measures_one hu ih).2
  | unsnoc _ hu ih => exact (Tree.exact_unsnoc' measures_one hu ih).2
  | @splitAtLeft t l r i _ hs ih =>
    obtain ⟨l', r', hs', -, -, hl, -⟩ := splitAt_ok ih i
    cases hs.symm.trans hs'
    exact hl
  | @splitAtRight t l r i _ hs ih =>
    obtain ⟨l', r', hs', -, -, -, hr⟩ := splitAt_ok ih i
    cases hs.symm.trans hs'
    exact hr

/-- **The finger tree is a faithful sequence.** In every tree the operations
build, every cached measure counts the elements below it, and the operations
are the list operations under `toList`. -/
theorem built_faithful {t : Tree e} (h : Built t) :
    t.TopExact ∧
      (∀ v, toList (cons v t) = v :: toList t) ∧
      (∀ v, toList (snoc t v) = toList t ++ [v]) ∧
      (uncons t).map (fun p => (p.1, toList p.2)) =
        (toList t).head?.map (fun v => (v, (toList t).tail)) ∧
      (unsnoc t).map (fun p => (toList p.1, p.2)) =
        (toList t).getLast?.map (fun v => ((toList t).dropLast, v)) ∧
      length t = (toList t).length ∧
      (∀ {acc : Type u} (f : acc → e → acc) (z : acc), foldl f z t = (toList t).foldl f z) ∧
      (∀ {acc : Type u} (f : e → acc → acc) (z : acc), foldr f z t = (toList t).foldr f z) ∧
      ∀ i, ∃ l r, splitAt t i = .ok (l, r) ∧ toList l = (toList t).take i ∧
        toList r = (toList t).drop i := by
  refine ⟨h.exact, fun v => toList_cons v t, fun v => toList_snoc t v, toList_uncons t, toList_unsnoc t,
    length_eq h.exact, fun f z => foldl_eq f z t, fun f z => foldr_eq f z t, fun i => ?_⟩
  obtain ⟨l, r, hs, hl, hr, -⟩ := splitAt_ok h.exact i
  exact ⟨l, r, hs, hl, hr⟩

/-- Seven elements: a tree with a node in its middle, cut inside that node. -/
theorem built_faithful_seven :
    ∃ l r, splitAt ([1, 2, 3, 4, 5, 6, 7].foldr cons empty) 4 = .ok (l, r) ∧
      toList l = (toList ([1, 2, 3, 4, 5, 6, 7].foldr cons empty)).take 4 ∧
      toList r = (toList ([1, 2, 3, 4, 5, 6, 7].foldr cons empty)).drop 4 := by
  have h : Built ([1, 2, 3, 4, 5, 6, 7].foldr cons empty) :=
    ((((((Built.empty.cons 7).cons 6).cons 5).cons 4).cons 3).cons 2).cons 1
  exact (built_faithful.{0} h).2.2.2.2.2.2.2.2 4

/-! ## The abstract type -/

/-- `F_sequence.t` as other modules see it: a tree whose measures are exact,
so that no operation on it can raise. -/
structure FSeq (e : Type) where
  tree : Tree e
  exact : tree.TopExact

namespace FSeq

def toList (s : FSeq e) : List e := FSequence.toList s.tree

def singleton (v : e) : FSeq e := ⟨FSequence.singleton v, trivial⟩

def cons (v : e) (s : FSeq e) : FSeq e := ⟨FSequence.cons v s.tree, s.exact.cons v⟩

def snoc (s : FSeq e) (v : e) : FSeq e := ⟨FSequence.snoc s.tree v, s.exact.snoc v⟩

def uncons (s : FSeq e) : Option (e × FSeq e) :=
  match h : FSequence.uncons s.tree with
  | none => none
  | some (v, t) => some (v, ⟨t, (Tree.exact_uncons' measures_one h s.exact).2⟩)

def unsnoc (s : FSeq e) : Option (FSeq e × e) :=
  match h : FSequence.unsnoc s.tree with
  | none => none
  | some (t, v) => some (⟨t, (Tree.exact_unsnoc' measures_one h s.exact).2⟩, v)

def headExn (s : FSeq e) : Exn e := FSequence.headExn s.tree

def lastExn (s : FSeq e) : Exn e := FSequence.lastExn s.tree

def foldl {acc : Type u} (f : acc → e → acc) (z : acc) (s : FSeq e) : acc := FSequence.foldl f z s.tree

/-- A `foldl` whose function can raise. -/
def foldExn {acc : Type u} (f : acc → e → Exn acc) (z : acc) (s : FSeq e) : Exn acc :=
  s.foldl (fun x v => x.andThen fun a => f a v) (.ok z : Exn acc)

def isEmpty (s : FSeq e) : Bool := FSequence.isEmpty s.tree

def length (s : FSeq e) : Nat := FSequence.length s.tree

theorem splitAt_exact {s : FSeq e} {i : Nat} {l r : Tree e} (h : FSequence.splitAt s.tree i = .ok (l, r)) :
    l.TopExact ∧ r.TopExact := by
  obtain ⟨l', r', h', -, -, hl, hr⟩ := splitAt_ok s.exact i
  cases h.symm.trans h'
  exact ⟨hl, hr⟩

def splitAt (s : FSeq e) (i : Nat) : FSeq e × FSeq e :=
  match h : FSequence.splitAt s.tree i with
  | .ok (l, r) => (⟨l, (splitAt_exact h).1⟩, ⟨r, (splitAt_exact h).2⟩)
  | .error _ => absurd (splitAt_ok s.exact i) (by simp [h])

@[simp] theorem toList_singleton (v : e) : (singleton v).toList = [v] := by
  simp [toList, toList_eq_elems, singleton, FSequence.singleton, elems, Tree.flat]

@[simp] theorem toList_cons (v : e) (s : FSeq e) : (s.cons v).toList = v :: s.toList :=
  FSequence.toList_cons v s.tree

@[simp] theorem toList_snoc (s : FSeq e) (v : e) : (s.snoc v).toList = s.toList ++ [v] :=
  FSequence.toList_snoc s.tree v

theorem uncons_eq_none {s : FSeq e} : s.uncons = none ↔ s.toList = [] := by
  rw [uncons, toList, toList_eq_elems]
  split
  · next hu => simp [elems_eq_nil_of_uncons hu]
  · next v t hu => simp [elems_uncons hu]

theorem uncons_eq_some {s s' : FSeq e} {v : e} (h : s.uncons = some (v, s')) :
    s.toList = v :: s'.toList := by
  rw [uncons] at h
  split at h
  · simp at h
  · next v t hu =>
    simp only [Option.some.injEq, Prod.mk.injEq] at h
    obtain ⟨rfl, rfl⟩ := h
    simpa [toList, toList_eq_elems] using elems_uncons hu

theorem unsnoc_eq_none {s : FSeq e} : s.unsnoc = none ↔ s.toList = [] := by
  rw [unsnoc, toList, toList_eq_elems]
  split
  · next hu => simp [elems_eq_nil_of_unsnoc hu]
  · next t v hu => simp [elems_unsnoc hu]

theorem unsnoc_eq_some {s s' : FSeq e} {v : e} (h : s.unsnoc = some (s', v)) :
    s.toList = s'.toList ++ [v] := by
  rw [unsnoc] at h
  split at h
  · simp at h
  · next t v hu =>
    simp only [Option.some.injEq, Prod.mk.injEq] at h
    obtain ⟨rfl, rfl⟩ := h
    simpa [toList, toList_eq_elems] using elems_unsnoc hu

theorem headExn_eq_ok {s : FSeq e} {v : e} : s.headExn = .ok v ↔ s.toList.head? = some v := by
  rw [headExn, FSequence.headExn, toList, toList_eq_elems]
  cases hu : FSequence.uncons s.tree with
  | none => simp [elems_eq_nil_of_uncons hu]
  | some p => simp [elems_uncons hu]

theorem lastExn_eq_ok {s : FSeq e} {v : e} : s.lastExn = .ok v ↔ s.toList.getLast? = some v := by
  rw [lastExn, FSequence.lastExn, toList, toList_eq_elems]
  cases hu : FSequence.unsnoc s.tree with
  | none => simp [elems_eq_nil_of_unsnoc hu]
  | some p => simp [elems_unsnoc hu]

@[simp] theorem foldl_eq {acc : Type u} (f : acc → e → acc) (z : acc) (s : FSeq e) :
    s.foldl f z = s.toList.foldl f z :=
  FSequence.foldl_eq f z s.tree

theorem foldExn_eq {acc : Type u} (f : acc → e → Exn acc) (z : acc) (s : FSeq e) :
    s.foldExn f z = Exn.fold f z s.toList := by
  have hstop : ∀ (l : List e) err, l.foldl (fun x v => Exn.andThen x fun a => f a v) (.error err) = .error err := by
    intro l err
    induction l with
    | nil => rfl
    | cons _ _ ih => exact ih
  rw [foldExn, foldl_eq]
  induction s.toList generalizing z with
  | nil => rfl
  | cons v l ih =>
    rw [List.foldl_cons, Exn.fold, Exn.andThen_ok]
    cases f z v with
    | ok a => exact ih a
    | error err => exact hstop l err

@[simp] theorem isEmpty_eq (s : FSeq e) : s.isEmpty = s.toList.isEmpty := by
  have hfalse : ∀ l : List e, l.foldl (fun _ _ => false) false = false := by
    intro l; induction l with
    | nil => rfl
    | cons _ _ ih => exact ih
  rw [isEmpty, FSequence.isEmpty, FSequence.foldl_eq, toList]
  cases FSequence.toList s.tree with
  | nil => rfl
  | cons v l => exact hfalse l

@[simp] theorem length_eq (s : FSeq e) : s.length = s.toList.length := FSequence.length_eq s.exact

theorem splitAt_toList (s : FSeq e) (i : Nat) :
    (s.splitAt i).1.toList = s.toList.take i ∧ (s.splitAt i).2.toList = s.toList.drop i := by
  obtain ⟨l, r, h, hl, hr, -⟩ := splitAt_ok s.exact i
  rw [splitAt]
  split
  · next l' r' h' =>
    cases h'.symm.trans h
    exact ⟨hl, hr⟩
  · next h' => exact absurd (h'.symm.trans h) (by simp)

@[simp] theorem splitAt_fst (s : FSeq e) (i : Nat) : (s.splitAt i).1.toList = s.toList.take i :=
  (splitAt_toList s i).1

@[simp] theorem splitAt_snd (s : FSeq e) (i : Nat) : (s.splitAt i).2.toList = s.toList.drop i :=
  (splitAt_toList s i).2

end FSeq

end Mina.FSequence
