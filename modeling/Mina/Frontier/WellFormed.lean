/-
When the frontier stays a rooted tree that contains its best tip.

The root moves when any branch becomes longer than `max_length`, and what is
not below the new root is garbage. The best tip changes only when `select`
answers `Take`. When a branch that is not the best tip's moves the root and
`select` keeps the best tip, the best tip goes out with the garbage, and the
next `best_tip` raises. `addBreadcrumb_extends_iff` says that this, and
protocol states that are missing for the new root, is all that goes wrong.
-/
import Mina.Frontier.AddBreadcrumb
import Mina.Consensus.EpochSnapshots

namespace Mina.Frontier

open Consensus

variable {F S : Type} [LinearOrder F] (constants : ConsensusConstants) (blake2 : String → String)

omit [LinearOrder F] in
structure WellFormed (t : T F S) : Prop where
  rooted : Rooted t.table t.root
  bestTip : ∃ n, t.table t.bestTip = some n
  bounded : Bounded t

/-- The frontier with the new breadcrumb: its root is the old one or a child
of it, and of the table with the new leaf its descendants are left. -/
structure Extends (t : T F S) (b : Breadcrumb F S) (p : Node F S) (t' : T F S) : Prop where
  wellFormed : WellFormed t'
  new : At t' b.stateHash b
  root : t'.root = t.root ∨ Edge t.table t.root t'.root
  table : Subtree (addLeaf t.table b p) t'.root t'.table

/-- The protocol states that the move to `heir` looks up are there: those its
scan state requires before the move, those of the transactions it proves
after the garbage is gone. -/
structure Supplied (t : T F S) (b : Breadcrumb F S) (heir : F) (n : Node F S) : Prop where
  required : ∀ x ∈ n.breadcrumb.requiredStateHashes.toList,
    x = t.root ∨ (t.protocolStatesForRootScanState x).isSome = true
  emitted : n.breadcrumb.justEmittedAProof = true → ∃ hashes, n.breadcrumb.proofTxnsStateHashes = some hashes ∧
    ∀ x ∈ hashes, (Below t.table heir x ∨ x = b.stateHash) ∨ (t.protocolStatesForRootScanState x).isSome = true

/-- If the branch gets too long, the move to the heir has its protocol states
and the new best tip is below the heir. -/
def Movable (t : T F S) (b : Breadcrumb F S) (p : Node F S) (status : Hooks.SelectStatus) : Prop :=
  ∀ r heir n, t.table t.root = some r → Overflows t r p → Heir t b heir n →
    Supplied t b heir n ∧ (status = .take ∨ Below t.table heir t.bestTip)

theorem create_wellFormed {root : Breadcrumb F S} {protocolStates : List (F × S)} {maxLength : Nat} {t : T F S}
    (h : create root protocolStates maxLength = .ok t) : WellFormed t := by
  obtain ⟨m, -, h⟩ := Exn.andThen_eq_ok.1 h
  cases h
  refine ⟨Rooted.single root, ⟨_, single_root root⟩, fun r _ x n hn => ?_⟩
  obtain ⟨-, rfl⟩ := single_some hn
  exact Nat.zero_le _

section Step

variable {t : T F S} {b : Breadcrumb F S} {p : Node F S} (hfresh : t.table b.stateHash = none)
  (hp : t.table b.parentHash = some p)
include hfresh hp

theorem addLeaf_at {table' : Table F S} {heir : F} (hsub : Subtree (addLeaf t.table b p) heir table')
    (hbelow : Below (addLeaf t.table b p) heir b.stateHash) :
    table' b.stateHash = some { breadcrumb := b, successorHashes := [], length := p.length + 1 } := by
  rw [hsub.kept _ hbelow, addLeaf_new (fresh_ne hfresh hp)]

variable (hwf : WellFormed t)
include hwf

omit hp [LinearOrder F] in
theorem bestTip_ne : t.bestTip ≠ b.stateHash := by
  obtain ⟨n, hn⟩ := hwf.bestTip
  intro heq
  rw [heq, hfresh] at hn
  cases hn

theorem short_extends {r : Node F S} (hr : t.table t.root = some r) (hshort : ¬ Overflows t r p)
    (status : Hooks.SelectStatus) :
    Extends t b p { t with table := addLeaf t.table b p, bestTip := newBestTip t b status } := by
  have hnew : addLeaf t.table b p b.stateHash = _ := addLeaf_new (fresh_ne hfresh hp)
  have hrooted : Rooted (addLeaf t.table b p) t.root := hwf.rooted.addLeaf hfresh hp
  refine ⟨⟨hrooted, ?_, hwf.bounded.short hfresh hp hr hshort⟩, ⟨_, hnew, rfl⟩, Or.inl rfl, Subtree.all hrooted⟩
  cases status with
  | take => exact ⟨_, hnew⟩
  | keep =>
    obtain ⟨n, hn⟩ := hwf.bestTip
    obtain ⟨n', hn', -⟩ := addLeaf_some hfresh hp hn
    exact ⟨n', hn'⟩

omit [LinearOrder F] hfresh hp in
theorem Heir.unique {heir heir' : F} {n n' : Node F S} (h : Heir t b heir n) (h' : Heir t b heir' n') :
    heir = heir' ∧ n = n' := by
  have heq := hwf.rooted.siblings_disjoint h.edge h'.edge h.above h'.above
  subst heq
  exact ⟨rfl, Option.some.inj (h.node.symm.trans h'.node)⟩

section Moved

variable {heir : F} {n : Node F S} (hheir : Heir t b heir n) {table' : Table F S}
  (hsub : Subtree (addLeaf t.table b p) heir table')
include hheir

omit [LinearOrder F] hp hwf in
theorem Heir.ne_new : heir ≠ b.stateHash := by
  intro heq
  have hn := hheir.node
  rw [heq, hfresh] at hn
  cases hn

include hsub

/-- What is left by the move: the new block and what was below the heir. -/
theorem moved_some {x : F} : (table' x).isSome = true ↔ Below t.table heir x ∨ x = b.stateHash := by
  have hrooted : Rooted (addLeaf t.table b p) t.root := hwf.rooted.addLeaf hfresh hp
  obtain ⟨n', hn', -⟩ := addLeaf_some hfresh hp hheir.node
  rw [(hrooted.subtree ⟨n', hn'⟩ hsub).reachable, hsub.below_iff,
    below_addLeaf hfresh hp hwf.rooted (hheir.ne_new hfresh)]
  constructor
  · rintro (⟨-, hb⟩ | ⟨heq, -⟩)
    · exact Or.inl hb
    · exact Or.inr heq
  · rintro (hb | heq)
    · refine Or.inl ⟨?_, hb⟩
      rintro rfl
      obtain ⟨k, hk⟩ := hwf.rooted.below_some ⟨n, hheir.node⟩ hb
      rw [hfresh] at hk
      cases hk
    · exact Or.inr ⟨heq, hheir.above⟩

/-- The move finds the emitted transactions in what is left, or in the map. -/
theorem findTxnStates_moved {bestTip : F} :
    (∃ states, findTxnStates { t with table := table', bestTip } n.breadcrumb = .ok states) ↔
      (n.breadcrumb.justEmittedAProof = true → ∃ hashes, n.breadcrumb.proofTxnsStateHashes = some hashes ∧
        ∀ x ∈ hashes, (Below t.table heir x ∨ x = b.stateHash) ∨ (t.protocolStatesForRootScanState x).isSome = true) := by
  simp only [findTxnStates_ok, findProtocolState_isSome, moved_some hfresh hp hwf hheir hsub]

/-- The new best tip is left by the move if it is the new block or below the
heir. -/
theorem newBestTip_moved {status : Hooks.SelectStatus} :
    (∃ k, table' (newBestTip t b status) = some k) ↔ status = .take ∨ Below t.table heir t.bestTip := by
  rw [← Option.isSome_iff_exists, moved_some hfresh hp hwf hheir hsub]
  cases status with
  | take => simp [newBestTip]
  | keep =>
    have hne := bestTip_ne hfresh hwf
    simp [newBestTip, hne]

theorem long_extends {status : Hooks.SelectStatus} (htip : status = .take ∨ Below t.table heir t.bestTip)
    (m : F → Option S) :
    Extends t b p { t with
      protocolStatesForRootScanState := m, table := table', root := heir, bestTip := newBestTip t b status } := by
  have hrooted : Rooted (addLeaf t.table b p) t.root := hwf.rooted.addLeaf hfresh hp
  obtain ⟨n', hn', -⟩ := addLeaf_some hfresh hp hheir.node
  have hnew : Below (addLeaf t.table b p) heir b.stateHash :=
    (below_addLeaf hfresh hp hwf.rooted (hheir.ne_new hfresh)).2 (Or.inr ⟨rfl, hheir.above⟩)
  exact ⟨⟨hrooted.subtree ⟨n', hn'⟩ hsub, (newBestTip_moved hfresh hp hwf hheir hsub).2 htip,
    hwf.bounded.long hfresh hp hwf.rooted hheir hsub⟩, ⟨_, addLeaf_at hfresh hp hsub hnew, rfl⟩, Or.inr hheir.edge, hsub⟩

end Moved

end Step

/-- **A well-formed frontier gets a new breadcrumb and stays well formed, with
its root moved to a child at most, exactly when a branch that gets too long
finds its protocol states and does not cut off the best tip.** -/
theorem addBreadcrumb_extends_iff :
    (∀ (root : Breadcrumb F S) (protocolStates : List (F × S)) (maxLength : Nat) (t : T F S),
      create root protocolStates maxLength = .ok t → WellFormed t) ∧
    ∀ (t : T F S) (b tip : Breadcrumb F S) (p : Node F S) (status : Hooks.SelectStatus),
      1 ≤ t.maxLength → WellFormed t → t.table b.stateHash = none → t.table b.parentHash = some p →
      At t t.bestTip tip →
      Hooks.select constants blake2 (consensusStateWithHashes tip) (consensusStateWithHashes b) = .ok status →
      ((∃ t', addBreadcrumb constants blake2 t b = .ok t' ∧ Extends t b p t') ↔ Movable t b p status) := by
  refine ⟨fun _ _ _ _ => create_wellFormed, fun t b tip p status hmax hwf hfresh hp htip hselect => ?_⟩
  obtain ⟨r, hr⟩ := hwf.rooted.root_some
  have hbest : bestTip t = .ok tip := htip.find
  by_cases hlong : Overflows t r p
  · obtain ⟨heir, n, table', hheir, hsub, hadd⟩ :=
      addBreadcrumb_long constants blake2 hwf.rooted hwf.bounded hr hfresh hp
        (parent_ne_root hr hp hmax hlong) hlong
    rw [hbest, Exn.andThen_ok, hselect] at hadd
    simp only [Exn.andThen_ok] at hadd
    constructor
    · rintro ⟨t', ht', hextends⟩
      rw [hadd] at ht'
      obtain ⟨states, hstates, ht'⟩ := Exn.andThen_eq_ok.1 ht'
      obtain ⟨txns, htxns, ht'⟩ := Exn.andThen_eq_ok.1 ht'
      obtain ⟨m, -, ht'⟩ := Exn.andThen_eq_ok.1 ht'
      cases ht'
      intro r' heir' n' hr' _ hheir'
      obtain ⟨rfl, rfl⟩ := Heir.unique hwf hheir hheir'
      exact ⟨⟨protocolStates_found hstates, (findTxnStates_moved hfresh hp hwf hheir hsub).1 ⟨txns, htxns⟩⟩,
        (newBestTip_moved hfresh hp hwf hheir hsub).1 hextends.wellFormed.bestTip⟩
    · intro hmovable
      obtain ⟨hsupplied, htip'⟩ := hmovable r heir n hr hlong hheir
      obtain ⟨states, m, hstates, hm, -⟩ := protocolStates_ok r.breadcrumb.protocolState hsupplied.required
      obtain ⟨txns, htxns⟩ := (findTxnStates_moved hfresh hp hwf hheir hsub).2 hsupplied.emitted
      rw [hstates, Exn.andThen_ok, htxns, Exn.andThen_ok, hm, Exn.andThen_ok] at hadd
      exact ⟨_, hadd, long_extends hfresh hp hwf hheir hsub htip' m⟩
  · have hadd := addBreadcrumb_short constants blake2 hr hfresh hp hlong
    rw [hbest, Exn.andThen_ok, hselect, Exn.andThen_ok] at hadd
    refine iff_of_true ⟨_, hadd, short_extends hfresh hp hwf hr hlong status⟩ fun r' heir n hr' hlong' _ => ?_
    rw [hr] at hr'
    cases hr'
    exact absurd hlong' hlong

/-! ### A fork from the root

The root is at slot 2, `A` of the next epoch is the best tip, and `B` is
another child of the root. The next block on `B` moves the root to `B`; it is
in the epoch of `A`, with another lock checkpoint, and its window is less
dense, so `select` keeps `A`.
-/

def forkConstants : ConsensusConstants where
  slotsPerSubWindow := 1
  subWindowsPerWindow := 2
  slotsPerEpoch := 6
  gracePeriodEnd := 7
  k := 1
  slotsPerWindow := 2
  checkpointWindowSizeInSlots := 1

def forkBlock (slot : Length) (parentHash : Nat) : ConsensusState.Block Nat where
  consensusTransition := slot
  previousProtocolStateHash := parentHash
  supplyIncrease := 0
  snarkedLedgerHash := 0
  genesisLedgerHash := 0
  producerVrfResult := 0
  blockStakeWinner := ⟨0, false⟩
  blockCreator := ⟨0, false⟩
  coinbaseReceiver := ⟨0, false⟩
  superchargeCoinbase := false

/-- The consensus state of a block at a slot. -/
def forkState (prev : ConsensusState Nat) (slot : Length) (parentHash : Nat) : ConsensusState Nat :=
  stateOf (ConsensusState.update numberVrf forkConstants prev (forkBlock slot parentHash))

def forkBreadcrumb (stateHash parentHash : Nat) (consensusState : ConsensusState Nat) : Breadcrumb Nat Nat where
  stateHash
  parentHash
  protocolState := stateHash
  consensusState
  requiredStateHashes := ⟨[], List.nodup_nil⟩
  justEmittedAProof := false
  proofTxnsStateHashes := none

def forkRoot : Breadcrumb Nat Nat :=
  forkBreadcrumb 1 0
    (forkState (stateOf (ConsensusState.createGenesis numberVrf forkConstants (numberLedger 0) none none 7)) 2 0)

def forkA : Breadcrumb Nat Nat := forkBreadcrumb 3 1 (forkState forkRoot.consensusState 6 1)

def forkB : Breadcrumb Nat Nat := forkBreadcrumb 2 1 (forkState forkRoot.consensusState 3 1)

/-- The next block on `A`. -/
def nextA : Breadcrumb Nat Nat := forkBreadcrumb 5 3 (forkState forkA.consensusState 7 3)

/-- The next block on `B`. -/
def nextB : Breadcrumb Nat Nat := forkBreadcrumb 4 2 (forkState forkB.consensusState 7 2)

def rootNode (successorHashes : List Nat) : Node Nat Nat := ⟨forkRoot, successorHashes, 0⟩

def forkAt (bestTip : Nat) (table : Table Nat Nat) : T Nat Nat where
  root := 1
  bestTip
  table
  protocolStatesForRootScanState _ := none
  maxLength := 1

def forkFrontier : T Nat Nat :=
  forkAt 3 (addLeaf (addLeaf (single forkRoot) forkA (rootNode [])) forkB (rootNode [3]))

theorem forkFrontier_wellFormed : WellFormed forkFrontier := by
  have hrooted : Rooted (addLeaf (single forkRoot) forkA (rootNode [])) 1 :=
    (Rooted.single forkRoot).addLeaf rfl rfl
  refine ⟨hrooted.addLeaf rfl rfl, ⟨_, rfl⟩, fun r hr x m hm => ?_⟩
  rcases addLeaf_cases rfl rfl hm with ⟨-, rfl⟩ | ⟨m, hm, -, hlen, -⟩
  · exact Nat.le_add_left _ _
  · rcases addLeaf_cases rfl rfl hm with ⟨-, rfl⟩ | ⟨m, hm, -, hlen', -⟩
    · rw [hlen]
      exact Nat.le_add_left _ _
    · obtain ⟨-, rfl⟩ := single_some hm
      rw [hlen, hlen']
      exact Nat.zero_le _

/-- The fork is reached from its root: `A` is taken, `B` is not. -/
theorem forkFrontier_reached :
    ((create forkRoot [] 1).andThen fun t => (addBreadcrumb forkConstants id t forkA).andThen fun t =>
      addBreadcrumb forkConstants id t forkB) = .ok forkFrontier := by
  have hcreate : create forkRoot [] 1 = .ok (forkAt 1 (single forkRoot)) := rfl
  have hA : Hooks.select forkConstants id (consensusStateWithHashes forkRoot) (consensusStateWithHashes forkA) =
      .ok .take := by decide +kernel
  have hB : Hooks.select forkConstants id (consensusStateWithHashes forkA) (consensusStateWithHashes forkB) =
      .ok .keep := by decide +kernel
  have htipA : bestTip (forkAt 1 (single forkRoot)) = .ok forkRoot := rfl
  have htipB : bestTip (forkAt 3 (addLeaf (single forkRoot) forkA (rootNode []))) = .ok forkA := rfl
  have haddA : addBreadcrumb forkConstants id (forkAt 1 (single forkRoot)) forkA =
      .ok (forkAt 3 (addLeaf (single forkRoot) forkA (rootNode []))) := by
    rw [addBreadcrumb_short (r := rootNode []) (p := rootNode []) forkConstants id rfl rfl rfl
      (by unfold Overflows; decide), htipA, Exn.andThen_ok, hA, Exn.andThen_ok]
    rfl
  have haddB : addBreadcrumb forkConstants id (forkAt 3 (addLeaf (single forkRoot) forkA (rootNode []))) forkB =
      .ok forkFrontier := by
    rw [addBreadcrumb_short (r := rootNode [3]) (p := rootNode [3]) forkConstants id rfl rfl rfl
      (by unfold Overflows; decide), htipB, Exn.andThen_ok, hB, Exn.andThen_ok]
    rfl
  rw [hcreate, Exn.andThen_ok, haddA, Exn.andThen_ok, haddB]

/-- The next block on `A` moves the root to `A`. -/
theorem nextA_extends :
    ∃ t', addBreadcrumb forkConstants id forkFrontier nextA = .ok t' ∧ Extends forkFrontier nextA ⟨forkA, [], 1⟩ t' := by
  refine (addBreadcrumb_extends_iff forkConstants id).2 forkFrontier nextA forkA ⟨forkA, [], 1⟩ .take (le_refl 1)
    forkFrontier_wellFormed rfl rfl ⟨_, rfl, rfl⟩ (by decide +kernel) |>.2 fun r heir n _ _ hheir => ?_
  have hA : Heir forkFrontier nextA 3 ⟨forkA, [], 1⟩ := ⟨⟨rootNode [2, 3], rfl, by decide⟩, rfl, .refl⟩
  obtain ⟨rfl, rfl⟩ := Heir.unique forkFrontier_wellFormed hA hheir
  exact ⟨⟨fun x hx => absurd hx List.not_mem_nil, fun h => nomatch h⟩, Or.inl rfl⟩

/-- The best tip goes out with the garbage. -/
theorem nextB_cuts_bestTip :
    WellFormed forkFrontier ∧ 1 ≤ forkFrontier.maxLength ∧ forkFrontier.table nextB.stateHash = none ∧
      (∃ p, forkFrontier.table nextB.parentHash = some p) ∧
      Hooks.select forkConstants id (consensusStateWithHashes forkA) (consensusStateWithHashes nextB) = .ok .keep ∧
      ∃ t', addBreadcrumb forkConstants id forkFrontier nextB = .ok t' ∧ t'.table t'.bestTip = none ∧ ¬ WellFormed t' := by
  have hrun : ((addBreadcrumb forkConstants id forkFrontier nextB).andThen fun t' =>
      Exn.assert (t'.table t'.bestTip).isNone (.ok t')).isOk = true := by decide +kernel
  obtain ⟨t', ht'⟩ : ∃ t', ((addBreadcrumb forkConstants id forkFrontier nextB).andThen fun t' =>
      Exn.assert (t'.table t'.bestTip).isNone (.ok t')) = .ok t' := Exn.exists_of_isOk hrun
  obtain ⟨t'', hadd, ht'⟩ := Exn.andThen_eq_ok.1 ht'
  obtain ⟨hnone, -⟩ := Exn.assert_eq_ok.1 ht'
  have hnone := Option.isNone_iff_eq_none.1 hnone
  refine ⟨forkFrontier_wellFormed, le_refl 1, rfl, ⟨_, rfl⟩, by decide +kernel, t'', hadd, hnone, fun hwf => ?_⟩
  obtain ⟨n, hn⟩ := hwf.bestTip
  rw [hnone] at hn
  cases hn

end Mina.Frontier
