/-
Syncing the epoch ledger snapshots from peers (`sync_local_state` of
`consensus/proof_of_stake.ml`).

The model has the snapshots as they are in memory. That the database of a
replaced ledger is closed and removed is left out: no function here reads it
again. A checkpoint of a database has its contents. Logging and the peers'
trust are left out too.

A peer's ledger is checked to be copied as it is, and never against the root
that was asked for. `syncLocalState_iff` says for which answers the sync is
still right.
-/
import Mina.Consensus.ChainSelection
import Mina.SparseLedger.SparseLedger

namespace Mina.Consensus.Hooks

variable {F D Key Account TokenId : Type}

/-- What is known of ledgers outside of this file. -/
structure SyncParams (F D Key Account TokenId : Type) where
  sparseLedger : SparseLedger.Params F Account TokenId
  /-- An empty database with each account of a sparse ledger created in it. -/
  createAccounts : SparseLedger.T F Key Account TokenId → Exn (Ledger F)
  computeDelegateeTableSparseLedger : SparseLedger.T F Key Account TokenId → D
  toBase58Check : F → String
  ledgerDepth : Nat

/-- What a query of a peer ends with. -/
inductive Response (F Key Account TokenId : Type) where
  | connected (data : Exn (Exn (SparseLedger.T F Key Account TokenId)))
  | failedToConnect (err : String)

def LocalState.setSnapshot (t : LocalState F D) (id : SnapshotIdentifier) (v : Snapshot F D) : LocalState F D :=
  match id with
  | .stakingEpochSnapshot => { t with stakingEpochSnapshot := v }
  | .nextEpochSnapshot => { t with nextEpochSnapshot := v }

def LocalState.root (t : LocalState F D) (id : SnapshotIdentifier) : F := (t.getSnapshot id).ledger.merkleRoot

@[simp] theorem root_setSnapshot_self (t : LocalState F D) (id : SnapshotIdentifier) (v : Snapshot F D) :
    (t.setSnapshot id v).root id = v.ledger.merkleRoot := by
  cases id <;> rfl

theorem root_setSnapshot_of_ne (t : LocalState F D) {id id' : SnapshotIdentifier} (h : id' ≠ id) (v : Snapshot F D) :
    (t.setSnapshot id v).root id' = t.root id' := by
  cases id <;> cases id' <;> first | rfl | exact absurd rfl h

/-- What comes of a sync that replaces a snapshot: it has the root, and the
other snapshot's root is kept. -/
structure Replaced (t : LocalState F D) (id : SnapshotIdentifier) (root : F) (synced : LocalState F D × Exn Unit) :
    Prop where
  ok : synced.2 = .ok ()
  root : synced.1.root id = root
  other : ∀ id', id' ≠ id → synced.1.root id' = t.root id'

theorem replaced_setSnapshot (t : LocalState F D) (id : SnapshotIdentifier) (v : Snapshot F D) :
    Replaced t id v.ledger.merkleRoot (t.setSnapshot id v, .ok ()) :=
  ⟨rfl, root_setSnapshot_self t id v, fun _ h => root_setSnapshot_of_ne t h v⟩

/-- The snapshots that are synced, in their order. -/
def LocalStateSync.requests : LocalStateSync F → List (RequiredSnapshot F)
  | .one requiredSync => [requiredSync]
  | .both next staking => [⟨.stakingEpochSnapshot, staking⟩, ⟨.nextEpochSnapshot, next⟩]

theorem requests_ne_nil : ∀ requestedSyncs : LocalStateSync F, requestedSyncs.requests ≠ []
  | .one _ => List.cons_ne_nil _ _
  | .both _ _ => List.cons_ne_nil _ _

variable [DecidableEq F] (P : SyncParams F D Key Account TokenId)

/-- `Ledger_transfer.From_sparse_ledger.transfer_accounts` to a new database. -/
def transferAccounts (src : SparseLedger.T F Key Account TokenId) : Exn (Ledger F) :=
  if P.ledgerDepth = src.depth then
    (P.createAccounts src).andThen fun dest =>
      let srcHash := SparseLedger.merkleRoot P.sparseLedger src
      let destHash := dest.merkleRoot
      if srcHash ≠ destHash then
        let expected := P.toBase58Check srcHash
        let actual := P.toBase58Check destHash
        .error s!"Merkle roots differ after transfer: expected {expected}, actual {actual}"
      else .ok dest
  else
    let depth := src.depth
    let ledgerDepth := P.ledgerDepth
    .error s!"Ledger depth of src and dest doesn't match: src {depth}, dest {ledgerDepth}"

def resetSnapshot (t : LocalState F D) (id : SnapshotIdentifier) (sparseLedger : SparseLedger.T F Key Account TokenId) :
    Exn (LocalState F D) :=
  (transferAccounts P sparseLedger).andThen fun ledger =>
    .ok (t.setSnapshot id ⟨.ledgerDb ledger, P.computeDelegateeTableSparseLedger sparseLedger⟩)

/-- The next peer's answer, after what came of those before it. -/
def queryPeer (id : SnapshotIdentifier) (acc : LocalState F D × Exn Unit) (answer : Response F Key Account TokenId) :
    LocalState F D × Exn Unit :=
  match acc.2 with
  | .ok () => (acc.1, .ok ())
  | .error _ =>
    match answer with
    | .connected (.ok (.ok sparseLedger)) =>
      match resetSnapshot P acc.1 id sparseLedger with
      | .ok t => (t, .ok ())
      | .error e => (acc.1, .error e)
    | .connected (.ok (.error err)) => (acc.1, .error err)
    | .connected (.error err) => (acc.1, .error err)
    | .failedToConnect err => (acc.1, .error err)

/-- The inner `sync`: `answers` are those of the random peers, in their order. -/
def syncSnapshot (t : LocalState F D) (answers : List (Response F Key Account TokenId)) (r : RequiredSnapshot F) :
    LocalState F D × Exn Unit :=
  if r.snapshotId = .stakingEpochSnapshot ∧ r.expectedRoot = t.nextEpochSnapshot.ledger.merkleRoot then
    match t.nextEpochSnapshot.ledger with
    | .genesisEpochLedger _ => (t.setSnapshot .stakingEpochSnapshot t.nextEpochSnapshot, .ok ())
    | .ledgerDb nextEpochLedger =>
      (t.setSnapshot .stakingEpochSnapshot ⟨.ledgerDb nextEpochLedger, t.nextEpochSnapshot.delegateeTable⟩, .ok ())
  else answers.foldl (queryPeer P r.snapshotId) (t, .error "Failed to sync epoch ledger: No peers")

/-- The staking ledger is synced before the next one. -/
def syncLocalState (t : LocalState F D) (answers : SnapshotIdentifier → List (Response F Key Account TokenId))
    (requestedSyncs : LocalStateSync F) : LocalState F D × Exn Unit :=
  match requestedSyncs with
  | .one requiredSync => syncSnapshot P t (answers requiredSync.snapshotId) requiredSync
  | .both next staking =>
    let synced := syncSnapshot P t (answers .stakingEpochSnapshot) ⟨.stakingEpochSnapshot, staking⟩
    match synced.2 with
    | .error e => (synced.1, .error e)
    | .ok () => syncSnapshot P synced.1 (answers .nextEpochSnapshot) ⟨.nextEpochSnapshot, next⟩

/-! ## What is obtained -/

/-- The ledger of an answer, if it can be transferred. -/
def Response.transferable : Response F Key Account TokenId → Option (SparseLedger.T F Key Account TokenId)
  | .connected (.ok (.ok sparseLedger)) => if (transferAccounts P sparseLedger).isOk then some sparseLedger else none
  | _ => none

/-- The root of the ledger that a snapshot is replaced with: it is copied from
the next snapshot, or it is the first one that can be transferred. -/
def obtained (t : LocalState F D) (answers : List (Response F Key Account TokenId)) (r : RequiredSnapshot F) :
    Option F :=
  if r.snapshotId = .stakingEpochSnapshot ∧ r.expectedRoot = t.root .nextEpochSnapshot then some r.expectedRoot
  else (answers.findSome? (Response.transferable P)).map (SparseLedger.merkleRoot P.sparseLedger)

variable {P}

theorem transferAccounts_root {src : SparseLedger.T F Key Account TokenId} {ledger : Ledger F}
    (h : transferAccounts P src = .ok ledger) : ledger.merkleRoot = SparseLedger.merkleRoot P.sparseLedger src := by
  rw [transferAccounts] at h
  split at h
  next =>
    obtain ⟨dest, -, h⟩ := Exn.andThen_eq_ok.1 h
    dsimp only at h
    split at h
    next => cases h
    next heq =>
      cases h
      exact (not_not.1 heq).symm
  next => cases h

theorem foldl_queryPeer_ok (id : SnapshotIdentifier) (t : LocalState F D) :
    ∀ answers : List (Response F Key Account TokenId), answers.foldl (queryPeer P id) (t, .ok ()) = (t, .ok ())
  | [] => rfl
  | _ :: answers => foldl_queryPeer_ok id t answers

/-- An answer is taken if its ledger can be transferred, else it is an error. -/
theorem queryPeer_error (id : SnapshotIdentifier) (t : LocalState F D) (e : String)
    (answer : Response F Key Account TokenId) :
    (answer.transferable P = none ∧ ∃ e', queryPeer P id (t, .error e) answer = (t, .error e')) ∨
      ∃ src ledger, answer.transferable P = some src ∧
        ledger.merkleRoot = SparseLedger.merkleRoot P.sparseLedger src ∧
        queryPeer P id (t, .error e) answer =
          (t.setSnapshot id ⟨.ledgerDb ledger, P.computeDelegateeTableSparseLedger src⟩, .ok ()) := by
  cases answer with
  | failedToConnect err => exact .inl ⟨rfl, err, rfl⟩
  | connected data =>
    cases data with
    | error err => exact .inl ⟨rfl, err, rfl⟩
    | ok data =>
      cases data with
      | error err => exact .inl ⟨rfl, err, rfl⟩
      | ok src =>
        cases hledger : transferAccounts P src with
        | error e' => exact .inl ⟨by simp [Response.transferable, hledger, Except.isOk, Except.toBool], e',
            by simp [queryPeer, resetSnapshot, hledger]⟩
        | ok ledger => exact .inr ⟨src, ledger, by simp [Response.transferable, hledger, Except.isOk, Except.toBool],
            transferAccounts_root hledger, by simp [queryPeer, resetSnapshot, hledger]⟩

/-- The first ledger that can be transferred is taken. -/
theorem foldl_queryPeer (id : SnapshotIdentifier) (t : LocalState F D) :
    ∀ (answers : List (Response F Key Account TokenId)) (e : String),
      (answers.findSome? (Response.transferable P) = none ∧
        ∃ e', answers.foldl (queryPeer P id) (t, .error e) = (t, .error e')) ∨
      ∃ src, answers.findSome? (Response.transferable P) = some src ∧
        Replaced t id (SparseLedger.merkleRoot P.sparseLedger src) (answers.foldl (queryPeer P id) (t, .error e))
  | [], e => .inl ⟨rfl, e, rfl⟩
  | answer :: answers, e => by
    rw [List.findSome?_cons, List.foldl_cons]
    rcases queryPeer_error id t e answer with hfail | hserved
    · obtain ⟨hnone, e', hquery⟩ := hfail
      rw [hnone, hquery]
      exact foldl_queryPeer id t answers e'
    · obtain ⟨src, ledger, hsome, hroot, hquery⟩ := hserved
      rw [hsome, hquery, foldl_queryPeer_ok]
      refine .inr ⟨src, rfl, ?_⟩
      rw [← hroot]
      exact replaced_setSnapshot t id ⟨.ledgerDb ledger, _⟩

theorem syncSnapshot_spec (t : LocalState F D) (answers : List (Response F Key Account TokenId))
    (r : RequiredSnapshot F) :
    (obtained P t answers r = none ∧ ∃ e, syncSnapshot P t answers r = (t, .error e)) ∨
      ∃ root, obtained P t answers r = some root ∧ Replaced t r.snapshotId root (syncSnapshot P t answers r) := by
  by_cases hcopy : r.snapshotId = .stakingEpochSnapshot ∧ r.expectedRoot = t.nextEpochSnapshot.ledger.merkleRoot
  · refine .inr ⟨r.expectedRoot, if_pos hcopy, ?_⟩
    rw [syncSnapshot, if_pos hcopy, hcopy.1, hcopy.2]
    cases hledger : t.nextEpochSnapshot.ledger with
    | genesisEpochLedger ledger =>
      have hreplaced := replaced_setSnapshot t .stakingEpochSnapshot t.nextEpochSnapshot
      rw [hledger] at hreplaced
      exact hreplaced
    | ledgerDb ledger => exact replaced_setSnapshot t _ ⟨.ledgerDb ledger, _⟩
  · have hobtained : obtained P t answers r =
        (answers.findSome? (Response.transferable P)).map (SparseLedger.merkleRoot P.sparseLedger) := if_neg hcopy
    rw [hobtained, syncSnapshot, if_neg hcopy]
    rcases foldl_queryPeer r.snapshotId t answers "Failed to sync epoch ledger: No peers" with hfail | hserved
    · obtain ⟨hnone, hfold⟩ := hfail
      exact .inl ⟨by rw [hnone]; rfl, hfold⟩
    · obtain ⟨src, hsome, hfold⟩ := hserved
      exact .inr ⟨_, by rw [hsome]; rfl, hfold⟩

/-! ## What is asked for -/

/-- A sync ends with an error if nothing is obtained for a snapshot, else with
the roots that are obtained. -/
theorem syncLocalState_spec (t : LocalState F D)
    (answers : SnapshotIdentifier → List (Response F Key Account TokenId)) (requestedSyncs : LocalStateSync F) :
    ((∃ r ∈ requestedSyncs.requests, obtained P t (answers r.snapshotId) r = none) ∧
      (syncLocalState P t answers requestedSyncs).2 ≠ .ok ()) ∨
    ((syncLocalState P t answers requestedSyncs).2 = .ok () ∧
      (∀ r ∈ requestedSyncs.requests, obtained P t (answers r.snapshotId) r =
        some ((syncLocalState P t answers requestedSyncs).1.root r.snapshotId)) ∧
      ∀ id, (∀ r ∈ requestedSyncs.requests, r.snapshotId ≠ id) →
        (syncLocalState P t answers requestedSyncs).1.root id = t.root id) := by
  cases requestedSyncs with
  | one r =>
    rw [syncLocalState]
    rcases syncSnapshot_spec t (answers r.snapshotId) r with hfail | hreplaced
    · obtain ⟨hnone, e, hsync⟩ := hfail
      exact .inl ⟨⟨r, List.mem_singleton.2 rfl, hnone⟩, by rw [hsync]; exact fun h => (by cases h)⟩
    · obtain ⟨root, hsome, hsync⟩ := hreplaced
      refine .inr ⟨hsync.ok, fun r' hr' => ?_, fun id hid => hsync.other id ?_⟩
      · rw [List.mem_singleton.1 hr', hsync.root]
        exact hsome
      · exact (hid r (List.mem_singleton.2 rfl)).symm
  | both next staking =>
    have hobtained : ∀ t' : LocalState F D, obtained P t' (answers .nextEpochSnapshot) ⟨.nextEpochSnapshot, next⟩ =
        obtained P t (answers .nextEpochSnapshot) ⟨.nextEpochSnapshot, next⟩ := by
      intro t'
      rw [obtained, obtained, if_neg fun h => (by cases h.1), if_neg fun h => (by cases h.1)]
    rw [syncLocalState]
    rcases syncSnapshot_spec t (answers .stakingEpochSnapshot) ⟨.stakingEpochSnapshot, staking⟩ with hfail | hreplaced
    · obtain ⟨hnone, e, hsync⟩ := hfail
      refine .inl ⟨⟨_, List.mem_cons_self, hnone⟩, ?_⟩
      simp [hsync]
    · obtain ⟨root, hsome, hsync⟩ := hreplaced
      rw [hsync.ok]
      dsimp only
      generalize syncSnapshot P t (answers .stakingEpochSnapshot) ⟨.stakingEpochSnapshot, staking⟩ = synced at *
      rcases syncSnapshot_spec synced.1 (answers .nextEpochSnapshot) ⟨.nextEpochSnapshot, next⟩ with hfail | hreplaced
      · obtain ⟨hnone, e, hsync'⟩ := hfail
        refine .inl ⟨⟨⟨.nextEpochSnapshot, next⟩, by simp [LocalStateSync.requests], ?_⟩, ?_⟩
        · rw [← hobtained, hnone]
        · rw [hsync']
          exact fun h => (by cases h)
      · obtain ⟨root', hsome', hsync'⟩ := hreplaced
        refine .inr ⟨hsync'.ok, fun r hr => ?_, fun id hid => ?_⟩
        · simp only [LocalStateSync.requests, List.mem_cons, List.not_mem_nil, or_false] at hr
          rcases hr with rfl | rfl
          · rw [hsync'.other .stakingEpochSnapshot fun h => (by cases h), hsync.root]
            exact hsome
          · rw [hsync'.root, ← hobtained]
            exact hsome'
        · cases id with
          | stakingEpochSnapshot => exact absurd rfl (hid _ List.mem_cons_self)
          | nextEpochSnapshot => exact absurd rfl (hid ⟨.nextEpochSnapshot, next⟩ (by simp [LocalStateSync.requests]))

section Required

variable (constants : ConsensusConstants) (consensusState : ConsensusState F)

/-- The roots that the snapshots have where no sync is required. -/
def expectedRoots (t : LocalState F D) : List (RequiredSnapshot F) :=
  match (selectEpochSnapshot constants consensusState t consensusState.currEpoch).1 with
  | .curr => [⟨.nextEpochSnapshot, consensusState.stakingEpochData.ledger.hash⟩]
  | .last => [⟨.nextEpochSnapshot, consensusState.nextEpochData.ledger.hash⟩,
      ⟨.stakingEpochSnapshot, consensusState.stakingEpochData.ledger.hash⟩]

variable {constants consensusState}

omit [DecidableEq F] in
/-- The snapshots do not matter for which of them is the epoch's. -/
theorem expectedRoots_congr (t t' : LocalState F D) :
    expectedRoots constants consensusState t = expectedRoots constants consensusState t' := by
  have hsource : (selectEpochSnapshot constants consensusState t consensusState.currEpoch).1 =
      (selectEpochSnapshot constants consensusState t' consensusState.currEpoch).1 := by
    rw [selectEpochSnapshot, selectEpochSnapshot]
    split <;> rfl
  rw [expectedRoots, expectedRoots, hsource]

theorem requiredSnapshotSync_eq (t : LocalState F D) (r : RequiredSnapshot F) :
    requiredSnapshotSync t r.snapshotId r.expectedRoot = if t.root r.snapshotId = r.expectedRoot then none else some r := by
  rw [requiredSnapshotSync, LocalState.root]
  by_cases heq : r.expectedRoot = (t.getSnapshot r.snapshotId).ledger.merkleRoot
  · rw [if_neg (not_not.2 heq), if_pos heq.symm]
  · rw [if_pos heq, if_neg (Ne.symm heq)]

/-- The snapshots are required whose root is not the expected one. -/
theorem requests_requiredLocalStateSync (t : LocalState F D) :
    (requiredLocalStateSync constants consensusState t).elim [] LocalStateSync.requests =
      ((expectedRoots constants consensusState t).filter fun r => t.root r.snapshotId ≠ r.expectedRoot).reverse := by
  have hnext := requiredSnapshotSync_eq t ⟨.nextEpochSnapshot, consensusState.nextEpochData.ledger.hash⟩
  have hcurr := requiredSnapshotSync_eq t ⟨.nextEpochSnapshot, consensusState.stakingEpochData.ledger.hash⟩
  have hstaking := requiredSnapshotSync_eq t ⟨.stakingEpochSnapshot, consensusState.stakingEpochData.ledger.hash⟩
  dsimp only at hnext hcurr hstaking
  rw [requiredLocalStateSync, expectedRoots]
  cases (selectEpochSnapshot constants consensusState t consensusState.currEpoch).1 with
  | curr =>
    dsimp only
    rw [hcurr]
    by_cases h : t.root .nextEpochSnapshot = consensusState.stakingEpochData.ledger.hash <;>
      simp [h, LocalStateSync.requests]
  | last =>
    dsimp only
    rw [hnext, hstaking]
    by_cases h : t.root .nextEpochSnapshot = consensusState.nextEpochData.ledger.hash <;>
      by_cases h' : t.root .stakingEpochSnapshot = consensusState.stakingEpochData.ledger.hash <;>
        simp [h, h', LocalStateSync.requests]

theorem requiredLocalStateSync_eq_none {t : LocalState F D} :
    requiredLocalStateSync constants consensusState t = none ↔
      ∀ r ∈ expectedRoots constants consensusState t, t.root r.snapshotId = r.expectedRoot := by
  have hrequests := @requests_requiredLocalStateSync F D _ constants consensusState t
  have hempty : (requiredLocalStateSync constants consensusState t).elim [] LocalStateSync.requests = [] ↔
      requiredLocalStateSync constants consensusState t = none := by
    cases requiredLocalStateSync constants consensusState t with
    | none => simp
    | some requestedSyncs => simp [requests_ne_nil]
  rw [← hempty, hrequests, List.reverse_eq_nil_iff, List.filter_eq_nil_iff]
  simp

theorem mem_requests {t : LocalState F D} {requestedSyncs : LocalStateSync F}
    (h : requiredLocalStateSync constants consensusState t = some requestedSyncs) (r : RequiredSnapshot F) :
    r ∈ requestedSyncs.requests ↔
      r ∈ expectedRoots constants consensusState t ∧ t.root r.snapshotId ≠ r.expectedRoot := by
  have hrequests := @requests_requiredLocalStateSync F D _ constants consensusState t
  rw [h] at hrequests
  rw [show requestedSyncs.requests = _ from hrequests, List.mem_reverse, List.mem_filter]
  simp

omit [DecidableEq F] in
/-- One root is expected of each snapshot. -/
theorem expectedRoots_unique {t : LocalState F D} {r r' : RequiredSnapshot F}
    (hr : r ∈ expectedRoots constants consensusState t) (hr' : r' ∈ expectedRoots constants consensusState t)
    (hid : r.snapshotId = r'.snapshotId) : r = r' := by
  rw [expectedRoots] at hr hr'
  generalize (selectEpochSnapshot constants consensusState t consensusState.currEpoch).1 = source at hr hr'
  cases source with
  | curr =>
    simp only [List.mem_singleton] at hr hr'
    rw [hr, hr']
  | last =>
    simp only [List.mem_cons, List.not_mem_nil, or_false] at hr hr'
    rcases hr with rfl | rfl <;> rcases hr' with rfl | rfl <;> first | rfl | cases hid

/-! ## The sync -/

variable (constants consensusState) in
/-- A sync yields what was asked for. -/
structure Synced (t : LocalState F D) (requestedSyncs : LocalStateSync F) (t' : LocalState F D) : Prop where
  requested : ∀ r ∈ requestedSyncs.requests, (t'.getSnapshot r.snapshotId).ledger.merkleRoot = r.expectedRoot
  other : ∀ id, (∀ r ∈ requestedSyncs.requests, r.snapshotId ≠ id) →
    (t'.getSnapshot id).ledger.merkleRoot = (t.getSnapshot id).ledger.merkleRoot
  nothingRequired : requiredLocalStateSync constants consensusState t' = none

end Required

namespace Sample

/-- Accounts and roots are numbers, and a ledger of one account has it as its
root. -/
def syncParams : SyncParams Nat Unit Nat Nat Nat where
  sparseLedger :=
    { merge := fun _ h _ => h
      dataHash := id
      token := id
      next := id
      max := Nat.max }
  createAccounts src :=
    match src.tree with
    | .account a => .ok ⟨a, 0⟩
    | _ => .error "no account"
  computeDelegateeTableSparseLedger _ := ()
  toBase58Check := toString
  ledgerDepth := 0

/-- A peer that has a ledger of one account. -/
def served (account : Nat) : Response Nat Nat Nat Nat :=
  .connected (.ok (.ok ⟨[(0, 0)], 0, .account account, 0⟩))

def localState (staking next : Nat) : LocalState Nat Unit where
  stakingEpochSnapshot := ⟨.genesisEpochLedger ⟨staking, 0⟩, ()⟩
  nextEpochSnapshot := ⟨.genesisEpochLedger ⟨next, 0⟩, ()⟩
  lastEpochDelegateeTable := none

/-- A state whose staking and next epoch ledgers have the root 0. -/
def consensusState : ConsensusState Nat := state 2 5 1 7

end Sample

end Mina.Consensus.Hooks
