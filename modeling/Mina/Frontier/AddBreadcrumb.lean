/-
What adding a breadcrumb does to a frontier whose table is a rooted tree of
at most `max_length` levels below the root.

A branch that is not too long gets a leaf (`addBreadcrumb_short`). A branch
that gets too long moves the root to the root's successor above the new
breadcrumb: the leaf is added and that successor's subtree is left
(`addBreadcrumb_long`). The two lemmas keep every lookup that can fail.
-/
import Mina.Frontier.FullFrontierFacts

namespace Mina.Frontier

open Consensus

variable {F S : Type} [LinearOrder F] (constants : ConsensusConstants) (blake2 : String → String)

/-- No node is more than `max_length` longer than the root. -/
def Bounded (t : T F S) : Prop :=
  ∀ r, t.table t.root = some r → ∀ x m, t.table x = some m → m.length ≤ r.length + t.maxLength

/-- The new breadcrumb's branch becomes longer than `max_length`. -/
def Overflows (t : T F S) (r p : Node F S) : Prop := r.length + t.maxLength < p.length + 1

/-- The best tip after `select`. -/
def newBestTip (t : T F S) (b : Breadcrumb F S) (status : Hooks.SelectStatus) : F :=
  if status = .take then b.stateHash else t.bestTip

section Diffs

variable {t : T F S} {b : Breadcrumb F S} {p : Node F S}

theorem applyDiff_newNode (hfresh : t.table b.stateHash = none) (hp : t.table b.parentHash = some p) :
    applyDiff t (.newNode b) = .ok ({ t with table := addLeaf t.table b p }, .newNode, none) := by
  simp only [applyDiff, findExn_ok hp, Exn.andThen_ok, addExn, hfresh, addLeaf]

/-- The last diff sets the best tip. -/
theorem applyDiffs_best (status : Hooks.SelectStatus) :
    applyDiffs t (if status = .take then [.bestTipChanged b.stateHash] else []) =
      .ok { t with bestTip := newBestTip t b status } := by
  cases status <;> rfl

theorem applyDiffs_append (t : T F S) (diffs diffs' : List (Diff F S)) :
    applyDiffs t (diffs ++ diffs') = (applyDiffs t diffs).andThen fun t' => applyDiffs t' diffs' := by
  induction diffs generalizing t with
  | nil => rfl
  | cons diff diffs ih =>
    simp only [applyDiffs, List.cons_append, Exn.fold] at ih ⊢
    cases applyDiff t diff with
    | error e => rfl
    | ok r => exact ih r.1

theorem applyDiffs_single (t : T F S) (diff : Diff F S) :
    applyDiffs t [diff] = (applyDiff t diff).andThen fun r => .ok r.1 := by
  simp only [applyDiffs, Exn.fold]
  cases applyDiff t diff <;> rfl

end Diffs

/-- A breadcrumb that was added has its parent in the table and was not
there. -/
theorem fresh_of_addBreadcrumb {t t' : T F S} {b : Breadcrumb F S}
    (h : addBreadcrumb constants blake2 t b = .ok t') :
    t.table b.stateHash = none ∧ ∃ p, t.table b.parentHash = some p := by
  obtain ⟨diffs, hdiffs, h⟩ := Exn.andThen_eq_ok.1 h
  obtain ⟨p, hp, hdiffs⟩ := Exn.andThen_eq_ok.1 hdiffs
  obtain ⟨r, -, hdiffs⟩ := Exn.andThen_eq_ok.1 hdiffs
  obtain ⟨tip, -, hdiffs⟩ := Exn.andThen_eq_ok.1 hdiffs
  obtain ⟨transition, -, hdiffs⟩ := Exn.andThen_eq_ok.1 hdiffs
  obtain ⟨status, -, hdiffs⟩ := Exn.andThen_eq_ok.1 hdiffs
  cases hdiffs
  rw [applyDiffs_append, applyDiffs_append, applyDiffs_single] at h
  obtain ⟨t₁, h, -⟩ := Exn.andThen_eq_ok.1 h
  obtain ⟨t₂, h, -⟩ := Exn.andThen_eq_ok.1 h
  obtain ⟨step, hstep, -⟩ := Exn.andThen_eq_ok.1 h
  obtain ⟨p', -, hstep⟩ := Exn.andThen_eq_ok.1 hstep
  obtain ⟨table, htable, -⟩ := Exn.andThen_eq_ok.1 hstep
  refine ⟨?_, p, findExn_eq_ok.1 hp⟩
  unfold addExn at htable
  split at htable
  next => cases htable
  next hnone => exact hnone

section Rooted

variable {t : T F S} {b : Breadcrumb F S} {r p : Node F S} (ht : Rooted t.table t.root) (hbound : Bounded t)
  (hr : t.table t.root = some r) (hfresh : t.table b.stateHash = none) (hp : t.table b.parentHash = some p)
include ht hbound hr hfresh hp

/-- The path of a new breadcrumb begins with the root's successor above its
parent. -/
theorem hashPath_fresh (hparent : b.parentHash ≠ t.root) :
    ∃ heir l, hashPath t b = .ok (heir :: l) ∧ Edge t.table t.root heir ∧ Below t.table heir b.parentHash := by
  have hroot : b.stateHash ≠ t.root := by
    intro heq
    rw [heq, hr] at hfresh
    cases hfresh
  have hlen := hbound r hr _ p hp
  obtain ⟨heir, l, hl, hedge, hbelow⟩ := findPath_ok ht hr (t.maxLength + 1) [b.stateHash] hp hparent (by omega)
  have hcount : ((none : Option Int).any fun c => decide (c ≤ 0)) ≠ true := by decide
  refine ⟨heir, l, ?_, hedge, hbelow⟩
  rw [hashPath, pathMap, findPath, if_neg hcount, Option.map_none, if_neg hroot, if_neg hparent,
    At.find ⟨p, hp, rfl⟩, Exn.andThen_ok]
  exact hl

omit hbound hr in
/-- The new leaf is no garbage. -/
theorem isGarbage_addLeaf {heir x : F} (hedge : Edge t.table t.root heir) (hbelow : Below t.table heir b.parentHash) :
    IsGarbage (addLeaf t.table b p) t.root heir x ↔ IsGarbage t.table t.root heir x := by
  have hparent : b.parentHash ≠ t.root := by
    intro heq
    rw [heq] at hbelow
    exact ht.not_below_of_edge hedge hbelow
  have hnew : ∀ {s}, Edge t.table t.root s → s ≠ b.stateHash := by
    rintro s hs rfl
    exact not_edge_fresh hfresh ht hs
  constructor
  · rintro ⟨s, hs, hne, hb⟩
    rcases (edge_addLeaf hfresh hp).1 hs with hs | ⟨heq, -⟩
    · rcases (below_addLeaf hfresh hp ht (hnew hs)).1 hb with ⟨-, hb⟩ | ⟨-, hb⟩
      · exact ⟨s, hs, hne, hb⟩
      · exact absurd (ht.siblings_disjoint hs hedge hb hbelow) hne
    · exact absurd heq.symm hparent
  · rintro ⟨s, hs, hne, hb⟩
    obtain ⟨m, hm, -⟩ := ht.edge_some hs
    obtain ⟨n, hn⟩ := ht.below_some ⟨m, hm⟩ hb
    refine ⟨s, (edge_addLeaf hfresh hp).2 (Or.inl hs), hne, (below_addLeaf hfresh hp ht (hnew hs)).2 (Or.inl ⟨?_, hb⟩)⟩
    rintro rfl
    rw [hfresh] at hn
    cases hn

omit ht hbound hfresh in
theorem calculateDiffs_eq :
    calculateDiffs constants blake2 t b =
      (bestTip t).andThen fun tip => (rootTransition t b p r).andThen fun transition =>
        (Hooks.select constants blake2 (consensusStateWithHashes tip) (consensusStateWithHashes b)).andThen fun status =>
          .ok ([.newNode b] ++ transition ++ if status = .take then [.bestTipChanged b.stateHash] else []) := by
  simp only [calculateDiffs, findExn_ok hp, findExn_ok hr, Exn.andThen_ok]

omit ht hbound in
/-- A branch that is not too long gets a leaf. -/
theorem addBreadcrumb_short (hshort : ¬ Overflows t r p) :
    addBreadcrumb constants blake2 t b =
      (bestTip t).andThen fun tip =>
        (Hooks.select constants blake2 (consensusStateWithHashes tip) (consensusStateWithHashes b)).andThen fun status =>
          .ok { t with table := addLeaf t.table b p, bestTip := newBestTip t b status } := by
  have hno : ¬ (p.length : Int) + 1 - r.length > t.maxLength := by
    unfold Overflows at hshort
    omega
  rw [addBreadcrumb, calculateDiffs_eq constants blake2 hr hp, rootTransition, if_neg hno]
  cases bestTip t with
  | error e => rfl
  | ok tip =>
    simp only [Exn.andThen_ok]
    cases Hooks.select constants blake2 (consensusStateWithHashes tip) (consensusStateWithHashes b) with
    | error e => rfl
    | ok status =>
      simp only [Exn.andThen_ok, List.append_nil]
      rw [applyDiffs_append, applyDiffs_single, applyDiff_newNode hfresh hp, Exn.andThen_ok, Exn.andThen_ok,
        applyDiffs_best]
      rfl

/-- The new root when the branch gets too long: the root's successor above
the new breadcrumb. -/
structure Heir (t : T F S) (b : Breadcrumb F S) (heir : F) (n : Node F S) : Prop where
  edge : Edge t.table t.root heir
  node : t.table heir = some n
  above : Below t.table heir b.parentHash

omit ht hbound hfresh in
/-- A child of the root makes no branch too long if there may be one. -/
theorem parent_ne_root (hmax : 1 ≤ t.maxLength) (hlong : Overflows t r p) : b.parentHash ≠ t.root := by
  intro heq
  rw [heq, hr] at hp
  cases hp
  unfold Overflows at hlong
  omega

/-- The diff of the move to the heir. -/
theorem rootTransition_long (hparent : b.parentHash ≠ t.root) (hlong : Overflows t r p) :
    ∃ heir n garbage, Heir t b heir n ∧ garbage.Nodup ∧ (∀ x, x ∈ garbage ↔ IsGarbage t.table t.root heir x) ∧
      rootTransition t b p r =
        (protocolStatesForNextRootScanState t.protocolStatesForRootScanState n.breadcrumb.requiredStateHashes t.root
          r.breadcrumb.protocolState).andThen fun states =>
            .ok [.rootTransitioned heir states garbage n.breadcrumb.justEmittedAProof] := by
  have hover : (p.length : Int) + 1 - r.length > t.maxLength := by
    unfold Overflows at hlong
    omega
  obtain ⟨heir, l, hpath, hedge, hbelow⟩ := hashPath_fresh ht hbound hr hfresh hp hparent
  obtain ⟨n, hn, -⟩ := ht.edge_some hedge
  have hkey := ht.keys heir n hn
  obtain ⟨garbage, hnodup, hmem, hdiff⟩ := calculateRootTransitionDiff_eq ht hr (hbound r hr) n.breadcrumb
  rw [hkey] at hmem hdiff
  refine ⟨heir, n, garbage, ⟨hedge, hn, hbelow⟩, hnodup, hmem, ?_⟩
  rw [rootTransition, if_pos hover, hpath, Exn.andThen_ok, hdExn, Exn.andThen_ok, At.find ⟨n, hn, rfl⟩,
    Exn.andThen_ok, hdiff]
  cases protocolStatesForNextRootScanState t.protocolStatesForRootScanState n.breadcrumb.requiredStateHashes t.root
    r.breadcrumb.protocolState <;> rfl

/-- A branch that gets too long moves the root. -/
theorem addBreadcrumb_long (hparent : b.parentHash ≠ t.root) (hlong : Overflows t r p) :
    ∃ heir n table', Heir t b heir n ∧ Subtree (addLeaf t.table b p) heir table' ∧
      addBreadcrumb constants blake2 t b =
        (bestTip t).andThen fun tip =>
          (protocolStatesForNextRootScanState t.protocolStatesForRootScanState n.breadcrumb.requiredStateHashes t.root
              r.breadcrumb.protocolState).andThen fun states =>
            (Hooks.select constants blake2 (consensusStateWithHashes tip) (consensusStateWithHashes b)).andThen
              fun status =>
                (findTxnStates { t with table := table' } n.breadcrumb).andThen fun _ =>
                  (ofAlistExn states).andThen fun m =>
                    .ok { t with
                      protocolStatesForRootScanState := m
                      table := table'
                      root := heir
                      bestTip := newBestTip t b status } := by
  obtain ⟨heir, n, garbage, hheir, hnodup, hmem, htransition⟩ :=
    rootTransition_long ht hbound hr hfresh hp hparent hlong
  obtain ⟨hedge, hn, hbelow⟩ := id hheir
  have ht' : Rooted (addLeaf t.table b p) t.root := ht.addLeaf hfresh hp
  have hedge' : Edge (addLeaf t.table b p) t.root heir := (edge_addLeaf hfresh hp).2 (Or.inl hedge)
  obtain ⟨n', hn', hbc, -⟩ := addLeaf_some hfresh hp hn
  have hmem' : ∀ x, x ∈ garbage ↔ IsGarbage (addLeaf t.table b p) t.root heir x := fun x =>
    (hmem x).trans (isGarbage_addLeaf ht hfresh hp hedge hbelow).symm
  obtain ⟨table', hsub, hmove⟩ := moveRoot_eq (t := { t with table := addLeaf t.table b p }) ht' hn' hedge' hnodup hmem'
  refine ⟨heir, n, table', hheir, hsub, ?_⟩
  rw [addBreadcrumb, calculateDiffs_eq constants blake2 hr hp, htransition]
  cases bestTip t with
  | error e => rfl
  | ok tip =>
    simp only [Exn.andThen_ok]
    cases protocolStatesForNextRootScanState t.protocolStatesForRootScanState n.breadcrumb.requiredStateHashes t.root
      r.breadcrumb.protocolState with
    | error e => rfl
    | ok states =>
      simp only [Exn.andThen_ok]
      cases Hooks.select constants blake2 (consensusStateWithHashes tip) (consensusStateWithHashes b) with
      | error e => rfl
      | ok status =>
        simp only [Exn.andThen_ok]
        rw [applyDiffs_append, applyDiffs_append, applyDiffs_single, applyDiff_newNode hfresh hp, Exn.andThen_ok,
          Exn.andThen_ok, applyDiffs_single, applyDiff, hmove, hbc]
        cases findTxnStates { t with table := table' } n.breadcrumb with
        | error e => rfl
        | ok txns =>
          simp only [Exn.andThen_ok]
          cases ofAlistExn states with
          | error e => rfl
          | ok m => exact applyDiffs_best status

omit ht hbound in
/-- The new breadcrumb itself is no heir: it is not in the table yet. -/
theorem addBreadcrumb_root (hparent : b.parentHash = t.root) (hlong : Overflows t r p) (t' : T F S) :
    addBreadcrumb constants blake2 t b ≠ .ok t' := by
  intro h
  have hover : (p.length : Int) + 1 - r.length > t.maxLength := by
    unfold Overflows at hlong
    omega
  have hroot : b.stateHash ≠ t.root := by
    intro heq
    rw [heq, hr] at hfresh
    cases hfresh
  have hcount : ((none : Option Int).any fun c => decide (c ≤ 0)) ≠ true := by decide
  have hpath : hashPath t b = .ok [b.stateHash] := by
    rw [hashPath, pathMap, findPath, if_neg hcount, Option.map_none, if_neg hroot, if_pos hparent]
  obtain ⟨diffs, hdiffs, -⟩ := Exn.andThen_eq_ok.1 h
  rw [calculateDiffs_eq constants blake2 hr hp] at hdiffs
  obtain ⟨tip, -, hdiffs⟩ := Exn.andThen_eq_ok.1 hdiffs
  obtain ⟨transition, htransition, -⟩ := Exn.andThen_eq_ok.1 hdiffs
  rw [rootTransition, if_pos hover, hpath, Exn.andThen_ok, hdExn, Exn.andThen_ok] at htransition
  obtain ⟨heir, hheir, -⟩ := Exn.andThen_eq_ok.1 htransition
  obtain ⟨n, hn, -⟩ := Exn.andThen_eq_ok.1 hheir
  rw [findExn_eq_ok, hfresh] at hn
  cases hn

end Rooted

/-! ## Lengths -/

section Lengths

variable {t : T F S} {b : Breadcrumb F S} {r p : Node F S} (hfresh : t.table b.stateHash = none)
  (hp : t.table b.parentHash = some p) (hbound : Bounded t)
include hfresh hp hbound

theorem Bounded.leaf {x : F} {m : Node F S} (hr : t.table t.root = some r)
    (hm : addLeaf t.table b p x = some m) : m.length ≤ r.length + t.maxLength ∨ m.length = p.length + 1 := by
  rcases addLeaf_cases hfresh hp hm with ⟨-, rfl⟩ | ⟨k, hk, -, hlen, -⟩
  · exact Or.inr rfl
  · have := hbound r hr x k hk
    exact Or.inl (by omega)

theorem Bounded.short (hr : t.table t.root = some r) (hshort : ¬ Overflows t r p) {bestTip : F} :
    Bounded { t with table := addLeaf t.table b p, bestTip } := by
  intro r' hr' x m hm
  obtain ⟨k, hk, -, hlen, -⟩ := addLeaf_some hfresh hp hr
  obtain rfl : k = r' := Option.some.inj (hk.symm.trans hr')
  have hcases := hbound.leaf hfresh hp hr hm
  unfold Overflows at hshort
  dsimp only
  omega

theorem Bounded.long (ht : Rooted t.table t.root) {heir : F} {n : Node F S} (hheir : Heir t b heir n)
    {table' : Table F S} (hsub : Subtree (addLeaf t.table b p) heir table') {m : F → Option S} {bestTip : F} :
    Bounded { t with protocolStatesForRootScanState := m, table := table', root := heir, bestTip } := by
  intro r' hr' x k hk
  obtain ⟨r, hr⟩ := ht.root_some
  obtain ⟨n', hn', -, hlen', -⟩ := addLeaf_some hfresh hp hheir.node
  obtain ⟨_, -, hlen⟩ := ht.edge_some hheir.edge
  rw [lengthAt_eq hr, lengthAt_eq hheir.node] at hlen
  obtain rfl : n' = r' := Option.some.inj (hn'.symm.trans (hsub.some_iff.1 hr').2)
  have hplen := hbound r hr _ p hp
  have hcases := hbound.leaf hfresh hp hr (hsub.some_iff.1 hk).2
  dsimp only
  omega

end Lengths

end Mina.Frontier
