/-
The protocol states that the scan states of the frontier's blocks require are
always known.

They come from two places: the blocks in the table have their own state, and
those of blocks that are gone are in the map of the root. A child requires
what its parent requires and the parent at most, so the map has to cover the
root's states only (`Covered`), and every block's are then found. When the root
moves, the new map is made of the old one and the old root, before the old
root goes out; the transactions of the new root's proof are looked up after
that, and they are found in the old map.
-/
import Mina.Frontier.WellFormed

namespace Mina.Frontier

open Consensus

variable {F S : Type} [LinearOrder F] (constants : ConsensusConstants) (blake2 : String → String)

/-! ## Scan states from block to block -/

/-- What the scan state of a child requires, and what the transactions that
it emits refer to. -/
structure Follows (parent child : Breadcrumb F S) : Prop where
  required : ∀ x ∈ child.requiredStateHashes.toList, x ∈ parent.requiredStateHashes.toList ∨ x = parent.stateHash
  emitted : child.justEmittedAProof = true → ∀ hashes, child.proofTxnsStateHashes = some hashes →
    ∀ x ∈ hashes, x ∈ parent.requiredStateHashes.toList

/-- The frontiers that are reached from one with a single root, whose map has
the states that the root requires, by adding breadcrumbs. -/
inductive Run : T F S → Prop where
  | create {root : Breadcrumb F S} {protocolStates : List (F × S)} {maxLength : Nat} {t : T F S}
      (h : create root protocolStates maxLength = .ok t)
      (hcovers : ∀ x ∈ root.requiredStateHashes.toList, x ∈ protocolStates.map (·.1)) : Run t
  | add {t t' : T F S} {b : Breadcrumb F S} (hrun : Run t)
      (hfollows : ∀ p, t.table b.parentHash = some p → Follows p.breadcrumb b)
      (h : addBreadcrumb constants blake2 t b = .ok t') : Run t'

/-! ## The invariant -/

structure Covered (t : T F S) : Prop where
  rooted : Rooted t.table t.root
  bounded : Bounded t
  root : ∀ r, t.table t.root = some r → ∀ x ∈ r.breadcrumb.requiredStateHashes.toList,
    (t.protocolStatesForRootScanState x).isSome = true
  follows : ∀ h n h' n', t.table h = some n → h' ∈ n.successorHashes → t.table h' = some n' →
    Follows n.breadcrumb n'.breadcrumb

theorem lookup_isSome {l : List (F × S)} {h : F} (hmem : h ∈ l.map (·.1)) : (List.lookup h l).isSome = true := by
  induction l with
  | nil => cases hmem
  | cons pair l ih =>
    rw [List.lookup_cons]
    by_cases heq : h = pair.1
    · simp [heq]
    · rw [List.map_cons, List.mem_cons, or_iff_right heq] at hmem
      rw [beq_false_of_ne heq]
      exact ih hmem

theorem create_covered {root : Breadcrumb F S} {protocolStates : List (F × S)} {maxLength : Nat} {t : T F S}
    (h : create root protocolStates maxLength = .ok t)
    (hcovers : ∀ x ∈ root.requiredStateHashes.toList, x ∈ protocolStates.map (·.1)) : Covered t := by
  have hwf := create_wellFormed h
  obtain ⟨m, hm, h⟩ := Exn.andThen_eq_ok.1 h
  cases h
  unfold ofAlistExn at hm
  split at hm
  next =>
    cases hm
    refine ⟨hwf.rooted, hwf.bounded, fun r hr x hx => ?_, fun h n h' n' hn hmem => ?_⟩
    · obtain ⟨-, rfl⟩ := single_some hr
      exact lookup_isSome (hcovers x hx)
    · obtain ⟨-, rfl⟩ := single_some hn
      cases hmem
  next => cases hm

section Covered

variable {t : T F S} (hc : Covered t)
include hc

omit [LinearOrder F] in
theorem Covered.edge {h h' : F} {n n' : Node F S} (he : Edge t.table h h') (hn : t.table h = some n)
    (hn' : t.table h' = some n') : Follows n.breadcrumb n'.breadcrumb := by
  obtain ⟨m, hm, hmem⟩ := he
  rw [hn] at hm
  cases hm
  exact hc.follows h n h' n' hn hmem hn'

omit [LinearOrder F] in
/-- What a block requires is in the map or in the table. -/
theorem Covered.found {h : F} {n : Node F S} (hn : t.table h = some n) :
    ∀ x ∈ n.breadcrumb.requiredStateHashes.toList, (findProtocolState t x).isSome = true := by
  have hbelow := hc.rooted.below_root hn
  induction hbelow generalizing n with
  | refl =>
    intro x hx
    exact findProtocolState_isSome.2 (Or.inr (hc.root n hn x hx))
  | @tail p h _ he ih =>
    intro x hx
    obtain ⟨m, hm, -⟩ := id he
    rcases (hc.edge he hm hn).required x hx with hp | heq
    · exact ih hm x hp
    · rw [heq, hc.rooted.keys p m hm]
      exact findProtocolState_isSome.2 (Or.inl (by rw [hm]; rfl))

omit [LinearOrder F] in
/-- What a child of the root requires is in the map, or is the root. -/
theorem Covered.child {heir : F} {n : Node F S} (he : Edge t.table t.root heir) (hn : t.table heir = some n) :
    ∀ x ∈ n.breadcrumb.requiredStateHashes.toList,
      x = t.root ∨ (t.protocolStatesForRootScanState x).isSome = true := by
  intro x hx
  obtain ⟨r, hr⟩ := hc.rooted.root_some
  rcases (hc.edge he hr hn).required x hx with hp | heq
  · exact Or.inr (hc.root r hr x hp)
  · exact Or.inl (heq.trans (hc.rooted.keys _ r hr))

omit [LinearOrder F] in
/-- The transactions that a child of the root emits are found, whatever has
gone out of the table. -/
theorem Covered.emitted {heir : F} {n : Node F S} (he : Edge t.table t.root heir) (hn : t.table heir = some n)
    (table' : Table F S) {hashes : List F} (hemitted : n.breadcrumb.justEmittedAProof = true)
    (hhashes : n.breadcrumb.proofTxnsStateHashes = some hashes) :
    ∃ states, findTxnStates { t with table := table' } n.breadcrumb = .ok states := by
  obtain ⟨r, hr⟩ := hc.rooted.root_some
  refine findTxnStates_ok.2 fun _ => ⟨hashes, hhashes, fun x hx => findProtocolState_isSome.2 (Or.inr ?_)⟩
  exact hc.root r hr x ((hc.edge he hr hn).emitted hemitted hashes hhashes x hx)

variable {b : Breadcrumb F S} {p : Node F S} (hfresh : t.table b.stateHash = none)
  (hp : t.table b.parentHash = some p) (hfollows : Follows p.breadcrumb b)
include hfresh hp hfollows

/-- The new leaf follows its parent. -/
theorem Covered.addLeaf_follows {h h' : F} {n n' : Node F S} (hn : addLeaf t.table b p h = some n)
    (hmem : h' ∈ n.successorHashes) (hn' : addLeaf t.table b p h' = some n') :
    Follows n.breadcrumb n'.breadcrumb := by
  rcases (edge_addLeaf hfresh hp).1 ⟨n, hn, hmem⟩ with he | ⟨rfl, rfl⟩
  · obtain ⟨m, hm, hmem'⟩ := he
    obtain ⟨m', hm', -⟩ := hc.rooted.edge_some ⟨m, hm, hmem'⟩
    obtain ⟨k, hk, hbc, -⟩ := addLeaf_some hfresh hp hm
    obtain ⟨k', hk', hbc', -⟩ := addLeaf_some hfresh hp hm'
    rw [hn] at hk
    rw [hn'] at hk'
    cases hk
    cases hk'
    rw [hbc, hbc']
    exact hc.follows h m h' m' hm hmem' hm'
  · rw [addLeaf_new (fresh_ne hfresh hp)] at hn'
    rw [addLeaf_parent] at hn
    cases hn
    cases hn'
    exact hfollows

end Covered

/-! ## A step -/

/-- When the root moves, it moves to a child, and the map has the states that
the new root requires and no others. -/
structure Moves (t t' : T F S) : Prop where
  edge : Edge t.table t.root t'.root
  states : ∀ n, t.table t'.root = some n →
    ∀ x, (t'.protocolStatesForRootScanState x).isSome = true ↔ x ∈ n.breadcrumb.requiredStateHashes.toList

theorem Covered.step {t t' : T F S} {b : Breadcrumb F S} (hc : Covered t)
    (hfollows : ∀ p, t.table b.parentHash = some p → Follows p.breadcrumb b)
    (h : addBreadcrumb constants blake2 t b = .ok t') : Covered t' ∧ (t'.root ≠ t.root → Moves t t') := by
  obtain ⟨hfresh, p, hp⟩ := fresh_of_addBreadcrumb constants blake2 h
  obtain ⟨r, hr⟩ := hc.rooted.root_some
  have hrooted : Rooted (addLeaf t.table b p) t.root := hc.rooted.addLeaf hfresh hp
  by_cases hlong : Overflows t r p
  · by_cases hparent : b.parentHash = t.root
    · exact absurd h (addBreadcrumb_root constants blake2 hr hfresh hp hparent hlong t')
    obtain ⟨heir, n, table', hheir, hsub, hadd⟩ :=
      addBreadcrumb_long constants blake2 hc.rooted hc.bounded hr hfresh hp hparent hlong
    rw [h] at hadd
    obtain ⟨tip, -, hadd⟩ := Exn.andThen_eq_ok.1 hadd.symm
    obtain ⟨states, hstates, hadd⟩ := Exn.andThen_eq_ok.1 hadd
    obtain ⟨status, -, hadd⟩ := Exn.andThen_eq_ok.1 hadd
    obtain ⟨txns, -, hadd⟩ := Exn.andThen_eq_ok.1 hadd
    obtain ⟨m, hm, hadd⟩ := Exn.andThen_eq_ok.1 hadd
    cases hadd
    obtain ⟨n', hn', hbc, -⟩ := addLeaf_some hfresh hp hheir.node
    obtain ⟨states', m', hstates', hm', hkeys⟩ :=
      protocolStates_ok r.breadcrumb.protocolState (hc.child hheir.edge hheir.node)
    obtain rfl : states = states' := Except.ok.inj (hstates.symm.trans hstates')
    obtain rfl : m = m' := Except.ok.inj (hm.symm.trans hm')
    refine ⟨⟨hrooted.subtree ⟨n', hn'⟩ hsub, hc.bounded.long hfresh hp hc.rooted hheir hsub,
      fun r' hr' x hx => ?_, fun h k h' k' hk hmem hk' => ?_⟩, fun _ => ⟨hheir.edge, fun k hk x => ?_⟩⟩
    · obtain rfl : n' = r' := Option.some.inj (hn'.symm.trans (hsub.some_iff.1 hr').2)
      rw [hbc] at hx
      exact (hkeys x).2 hx
    · exact hc.addLeaf_follows hfresh hp (hfollows p hp) (hsub.some_iff.1 hk).2 hmem (hsub.some_iff.1 hk').2
    · obtain rfl : n = k := Option.some.inj (hheir.node.symm.trans hk)
      exact hkeys x
  · have hadd := addBreadcrumb_short constants blake2 hr hfresh hp hlong
    rw [h] at hadd
    obtain ⟨tip, -, hadd⟩ := Exn.andThen_eq_ok.1 hadd.symm
    obtain ⟨status, -, hadd⟩ := Exn.andThen_eq_ok.1 hadd
    cases hadd
    refine ⟨⟨hrooted, hc.bounded.short hfresh hp hr hlong, fun r' hr' x hx => ?_,
      fun h n h' n' hn hmem hn' => ?_⟩, fun hne => absurd rfl hne⟩
    · obtain ⟨k, hk, hbc, -⟩ := addLeaf_some hfresh hp hr
      obtain rfl : k = r' := Option.some.inj (hk.symm.trans hr')
      rw [hbc] at hx
      exact hc.root r hr x hx
    · exact hc.addLeaf_follows hfresh hp (hfollows p hp) hn hmem hn'

/-! ## Runs -/

theorem Run.covered {t : T F S} (hrun : Run constants blake2 t) : Covered t := by
  induction hrun with
  | create h hcovers => exact create_covered h hcovers
  | add _ hfollows h ih => exact (ih.step constants blake2 hfollows h).1

/-- Every block's required states are answered, and no move to a child of the
root raises: not when its states are collected, nor when the transactions it
emits are looked up in what is left of the table. -/
structure Kept (t : T F S) : Prop where
  answers : ∀ h n, t.table h = some n → ∀ x ∈ n.breadcrumb.requiredStateHashes.toList,
    (findProtocolState t x).isSome = true
  next : ∀ heir n, Edge t.table t.root heir → t.table heir = some n →
    ∃ diff, calculateRootTransitionDiff t n.breadcrumb = .ok diff
  emitted : ∀ heir n hashes (table' : Table F S), Edge t.table t.root heir → t.table heir = some n →
    n.breadcrumb.justEmittedAProof = true → n.breadcrumb.proofTxnsStateHashes = some hashes →
    ∃ states, findTxnStates { t with table := table' } n.breadcrumb = .ok states

theorem Covered.kept {t : T F S} (hc : Covered t) : Kept t := by
  refine ⟨fun h n hn => hc.found hn, fun heir n he hn => ?_, fun heir n hashes table' he hn => hc.emitted he hn table'⟩
  obtain ⟨r, hr⟩ := hc.rooted.root_some
  obtain ⟨garbage, -, -, hdiff⟩ := calculateRootTransitionDiff_eq hc.rooted hr (hc.bounded r hr) n.breadcrumb
  obtain ⟨states, m, hstates, -⟩ := protocolStates_ok r.breadcrumb.protocolState (hc.child he hn)
  exact ⟨_, by rw [hdiff, hstates, Exn.andThen_ok]⟩

/-- **On every run the frontier knows the protocol states that its blocks'
scan states require, a root move never misses one, and after it the map has
the states of the new root and no others.** -/
theorem protocol_states_kept {t : T F S} (hrun : Run constants blake2 t) :
    Kept t ∧ ∀ (b : Breadcrumb F S) (t' : T F S), (∀ p, t.table b.parentHash = some p → Follows p.breadcrumb b) →
      addBreadcrumb constants blake2 t b = .ok t' → t'.root ≠ t.root → Moves t t' :=
  ⟨hrun.covered.kept, fun _ _ hfollows h => (hrun.covered.step constants blake2 hfollows h).2⟩

/-! ### A root with a state from before it -/

def olderRoot : Breadcrumb Nat Nat := { forkRoot with requiredStateHashes := ⟨[10], by decide⟩ }

/-- A child that emits a proof of the older block's transactions. -/
def olderChild : Breadcrumb Nat Nat :=
  { forkA with
    requiredStateHashes := ⟨[1, 10], by decide⟩
    justEmittedAProof := true
    proofTxnsStateHashes := some [10] }

def olderAt (bestTip : Nat) (table : Table Nat Nat) : T Nat Nat where
  root := 1
  bestTip
  table
  protocolStatesForRootScanState h := List.lookup h [(10, 100)]
  maxLength := 1

theorem olderAt_run : Run forkConstants id (olderAt 3 (addLeaf (single olderRoot) olderChild ⟨olderRoot, [], 0⟩)) := by
  have hcreate : create olderRoot [(10, 100)] 1 = .ok (olderAt 1 (single olderRoot)) := rfl
  refine .add (.create hcreate (by decide)) (b := olderChild) (fun p hp => ?_) ?_
  · cases hp
    refine ⟨by decide, fun _ hashes hhashes => ?_⟩
    cases hhashes
    decide
  · have hselect : Hooks.select forkConstants id (consensusStateWithHashes olderRoot)
        (consensusStateWithHashes olderChild) = .ok .take := by decide +kernel
    have htip : bestTip (olderAt 1 (single olderRoot)) = .ok olderRoot := rfl
    rw [addBreadcrumb_short (r := ⟨olderRoot, [], 0⟩) (p := ⟨olderRoot, [], 0⟩) forkConstants id rfl rfl rfl
      (by unfold Overflows; decide), htip, Exn.andThen_ok, hselect, Exn.andThen_ok]
    rfl

theorem olderAt_kept :
    Kept (olderAt 3 (addLeaf (single olderRoot) olderChild ⟨olderRoot, [], 0⟩)) :=
  (protocol_states_kept forkConstants id olderAt_run).1

end Mina.Frontier
