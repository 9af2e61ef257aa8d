/-
The local epoch ledger snapshots follow the chain (`snapshots_follow_chain`).

On the chain the epoch ledgers are rotated when a block enters an epoch; off
the chain the snapshots are rotated when the root, `k` blocks behind, crosses
the same boundary, with the same snarked ledger. So the snapshots are always
the epoch ledgers of the root (`Chain.localState_roots`), and what is left is
where the root is: in the epoch of the tip once more than `k` blocks of it are
there, else in the epoch before it, as that had more than `k` blocks too.
-/
import Mina.Consensus.Hooks

namespace Mina.Consensus

open Hooks

variable {F D : Type} [DecidableEq F]

/-! ## One block -/

section Update

variable {V : Vrf F} {constants : ConsensusConstants}

/-- What a block does to the epoch data's ledgers and length. -/
theorem EpochData.updatePair_cases {staking next staking' next' : EpochData F}
    {epochCount epochCount' prevEpoch nextEpoch nextSlot : Length} {prevHash vrfResult snarked genesis : F}
    {total : Amount}
    (h : updatePair V constants staking next epochCount prevEpoch nextEpoch nextSlot prevHash vrfResult snarked genesis
      total = .ok (staking', next', epochCount')) :
    (nextEpoch = prevEpoch ∧ staking' = staking ∧ next'.ledger = next.ledger ∧
      next'.epochLength = Length.succ next.epochLength) ∨
    (prevEpoch < nextEpoch ∧ staking' = next ∧
      next'.ledger.hash = (if snarked = genesis then next.ledger.hash else snarked) ∧ next'.epochLength = 1) := by
  simp only [updatePair, Exn.andThen_eq_ok, Except.ok.injEq, Prod.mk.injEq] at h
  obtain ⟨r, hr, inRange, -, rfl, rfl, rfl⟩ := h
  unfold rotate at hr
  split at hr
  next hgt =>
    cases hr
    refine Or.inr ⟨hgt, rfl, ?_, rfl⟩
    rw [nextStakingLedger]
    split <;> rfl
  next hle =>
    obtain ⟨heq, hr⟩ := Exn.assert_eq_ok.1 hr
    cases hr
    exact Or.inl ⟨by simpa using heq, rfl, rfl, rfl⟩

variable (constants) in
/-- What a block does to a consensus state, as far as the epoch ledgers go. -/
structure Follows (prev next : ConsensusState F) (snarked genesis : F) : Prop where
  slots : next.currGlobalSlot.slotsPerEpoch = constants.slotsPerEpoch
  epochs : (next.currEpoch = prev.currEpoch ∧ next.stakingEpochData = prev.stakingEpochData ∧
      next.nextEpochData.ledger = prev.nextEpochData.ledger ∧
      next.nextEpochData.epochLength = Length.succ prev.nextEpochData.epochLength) ∨
    (prev.currEpoch < next.currEpoch ∧ next.stakingEpochData = prev.nextEpochData ∧
      next.nextEpochData.ledger.hash = (if snarked = genesis then prev.nextEpochData.ledger.hash else snarked) ∧
      next.nextEpochData.epochLength = 1)

theorem ConsensusState.update_follows {prev next : ConsensusState F} {b : Block F}
    (h : update V constants prev b = .ok next) :
    Follows constants prev next b.snarkedLedgerHash b.genesisLedgerHash ∧
      next.currGlobalSlot.slotNumber = b.consensusTransition := by
  unfold update at h
  simp only at h
  split at h
  next => cases h
  next slotDiff hdiff =>
    split at h
    next => cases h
    next total htotal =>
      split at h
      next hslot =>
        obtain ⟨r, hr, hnext⟩ := Exn.andThen_eq_ok.1 h
        cases hnext
        exact ⟨⟨rfl, EpochData.updatePair_cases hr⟩, rfl⟩
      next => cases h

end Update

/-! ## Chains -/

variable (V : Vrf F) (constants : ConsensusConstants) (genesisLedger : Ledger F)
  (genesisEpochData : Option (ConsensusState.GenesisEpochData F)) (fork : Option ConsensusState.Fork)

/-- The consensus states `b 0`, ..., `b N` of a chain, with the snarked
ledgers of its blocks. An epoch is only left after more than `k` blocks. -/
structure Chain (N : Nat) (b : Nat → ConsensusState F) (snarked : Nat → Ledger F) : Prop where
  genesis : ∃ negativeOneHash,
    ConsensusState.createGenesis V constants genesisLedger genesisEpochData fork negativeOneHash = .ok (b 0)
  step : ∀ n < N, ∃ block : ConsensusState.Block F,
    block.snarkedLedgerHash = (snarked n).merkleRoot ∧ block.genesisLedgerHash = genesisLedger.merkleRoot ∧
      ConsensusState.update V constants (b n) block = .ok (b (n + 1))
  slots : ∀ n < N, (b n).currGlobalSlot.slotNumber < (b (n + 1)).currGlobalSlot.slotNumber
  epochs : ∀ n < N, (b (n + 1)).currEpoch ≠ (b n).currEpoch →
    constants.k.val + 1 ≤ ((Finset.range (n + 1)).filter fun i => (b i).currEpoch = (b n).currEpoch).card

/-- The first block of the epoch of a block. -/
def epochStart (b : Nat → ConsensusState F) : Nat → Nat
  | 0 => 0
  | n + 1 => if (b (n + 1)).currEpoch = (b n).currEpoch then epochStart b n else n + 1

/-- The local state when `b n` is the tip and the root is `k` blocks behind. -/
def localStateAt (computeDelegateeTable : Ledger F → D) (b : Nat → ConsensusState F) (snarked : Nat → Ledger F) :
    Nat → LocalState F D
  | 0 => LocalState.create computeDelegateeTable genesisLedger genesisEpochData
  | n + 1 =>
    let localState := localStateAt computeDelegateeTable b snarked n
    if constants.k.val ≤ n then
      frontierRootTransition computeDelegateeTable (b (n - constants.k.val)) (b (n - constants.k.val + 1)) localState
        (snarked (n - constants.k.val)) genesisLedger.merkleRoot
    else localState

namespace Chain

variable {V constants genesisLedger genesisEpochData fork} {N : Nat} {b : Nat → ConsensusState F}
  {snarked : Nat → Ledger F}

theorem follows (h : Chain V constants genesisLedger genesisEpochData fork N b snarked) {n : Nat} (hn : n < N) :
    Follows constants (b n) (b (n + 1)) (snarked n).merkleRoot genesisLedger.merkleRoot := by
  obtain ⟨block, hsnarked, hgenesis, hupdate⟩ := h.step n hn
  rw [← hsnarked, ← hgenesis]
  exact (ConsensusState.update_follows hupdate).1

/-- The genesis block is in epoch zero and has the genesis epoch ledgers. -/
theorem first (h : Chain V constants genesisLedger genesisEpochData fork N b snarked) :
    (b 0).currEpoch = 0 ∧ (b 0).currGlobalSlot.slotsPerEpoch = constants.slotsPerEpoch ∧
      (b 0).stakingEpochData.ledger.hash =
        (ConsensusState.genesisStaking V genesisLedger genesisEpochData).ledger.merkleRoot ∧
      (b 0).nextEpochData.ledger.hash =
        (ConsensusState.genesisNext V genesisLedger genesisEpochData).ledger.merkleRoot := by
  obtain ⟨hash, hgenesis⟩ := h.genesis
  obtain ⟨hfollows, hslot⟩ := ConsensusState.update_follows hgenesis
  have hepoch : (b 0).currEpoch = 0 := by
    rw [ConsensusState.currEpoch, GlobalSlot.epoch, hslot]
    exact Fin.ext (Nat.zero_div _)
  refine ⟨hepoch, hfollows.slots, ?_⟩
  rcases hfollows.epochs with ⟨-, hstaking, hnext, -⟩ | ⟨hlt, -⟩
  · rw [hstaking, hnext]
    exact ⟨rfl, rfl⟩
  · rw [hepoch] at hlt
    exact absurd hlt (Fin.not_lt_zero _)

theorem slotsPerEpoch (h : Chain V constants genesisLedger genesisEpochData fork N b snarked) {n : Nat}
    (hn : n ≤ N) : (b n).currGlobalSlot.slotsPerEpoch = constants.slotsPerEpoch := by
  cases n with
  | zero => exact h.first.2.1
  | succ n => exact (h.follows hn).slots

theorem epoch_mono (h : Chain V constants genesisLedger genesisEpochData fork N b snarked) {i n : Nat} (hi : i ≤ n)
    (hn : n ≤ N) : (b i).currEpoch ≤ (b n).currEpoch := by
  induction n, hi using Nat.le_induction with
  | base => exact le_refl _
  | succ n hi ih =>
    refine (ih (by omega)).trans ?_
    rcases (h.follows hn).epochs with ⟨heq, -⟩ | ⟨hlt, -⟩
    · exact heq.ge
    · exact hlt.le

/-- At least one slot for each block. -/
theorem slot_add_le (h : Chain V constants genesisLedger genesisEpochData fork N b snarked) {i n : Nat} (hi : i ≤ n)
    (hn : n ≤ N) : (b i).currGlobalSlot.slotNumber.val + (n - i) ≤ (b n).currGlobalSlot.slotNumber.val := by
  induction n, hi using Nat.le_induction with
  | base => rw [Nat.sub_self, Nat.add_zero]
  | succ n hi ih =>
    have hslot := Fin.lt_def.1 (h.slots n hn)
    have := ih (by omega)
    omega

omit [DecidableEq F] in
theorem epochStart_le (b : Nat → ConsensusState F) : ∀ n, epochStart b n ≤ n
  | 0 => le_refl _
  | n + 1 => by
    have := epochStart_le b n
    rw [epochStart]
    split <;> omega

/-- The blocks of an epoch have the same epoch ledgers. -/
theorem same_epoch (h : Chain V constants genesisLedger genesisEpochData fork N b snarked) {n : Nat} (hn : n ≤ N) :
    ∀ i, epochStart b n ≤ i → i ≤ n → (b i).currEpoch = (b n).currEpoch ∧
      (b i).stakingEpochData = (b n).stakingEpochData ∧ (b i).nextEpochData.ledger = (b n).nextEpochData.ledger := by
  induction n with
  | zero =>
    intro i _ hi
    obtain rfl : i = 0 := by omega
    exact ⟨rfl, rfl, rfl⟩
  | succ n ih =>
    intro i hstart hi
    rcases Nat.lt_or_ge n i with hgt | hle
    case inl =>
      obtain rfl : i = n + 1 := by omega
      exact ⟨rfl, rfl, rfl⟩
    case inr =>
      rw [epochStart] at hstart
      split at hstart
      next hsame =>
        obtain ⟨hepoch, hstaking, hnext⟩ := ih (by omega) i hstart hle
        rcases (h.follows hn).epochs with ⟨heq, hstaking', hnext', -⟩ | ⟨hlt, -⟩
        · exact ⟨hepoch.trans heq.symm, hstaking.trans hstaking'.symm, hnext.trans hnext'.symm⟩
        · exact absurd hsame hlt.ne'
      next hne => omega

theorem epochStart_eq_zero (h : Chain V constants genesisLedger genesisEpochData fork N b snarked) {n : Nat}
    (hn : n ≤ N) (hstart : epochStart b n = 0) : (b n).currEpoch = 0 := by
  rw [← (h.same_epoch hn 0 (by omega) (Nat.zero_le _)).1]
  exact h.first.1

/-- The first block of an epoch enters it: the staking data become the next
ones of the block before. -/
theorem enters (h : Chain V constants genesisLedger genesisEpochData fork N b snarked) {n m : Nat} (hn : n ≤ N)
    (hstart : epochStart b n = m + 1) :
    (b m).currEpoch < (b n).currEpoch ∧ (b n).stakingEpochData = (b m).nextEpochData ∧
      (b (m + 1)).nextEpochData.epochLength = 1 := by
  have hle := epochStart_le b n
  obtain ⟨hepoch, hstaking, -⟩ := h.same_epoch hn (m + 1) (by omega) (by omega)
  have hne : (b (m + 1)).currEpoch ≠ (b m).currEpoch := by
    clear hepoch hstaking
    induction n with
    | zero => cases hstart
    | succ n ih =>
      rw [epochStart] at hstart
      split at hstart
      next => exact ih (by omega) hstart (epochStart_le b n)
      next hne =>
        obtain rfl : n = m := by omega
        exact hne
  rw [← hepoch, ← hstaking]
  rcases (h.follows (n := m) (by omega)).epochs with ⟨heq, -⟩ | ⟨hlt, hstaking', -, hlength⟩
  · exact absurd heq hne
  · exact ⟨hlt, hstaking', hlength⟩

/-- Blocks of one epoch are fewer than its slots. -/
theorem lt_slotsPerEpoch (h : Chain V constants genesisLedger genesisEpochData fork N b snarked) {i n : Nat}
    (hi : i ≤ n) (hn : n ≤ N) (hepoch : (b i).currEpoch = (b n).currEpoch) (hne : (b n).currEpoch ≠ 0) :
    n - i < constants.slotsPerEpoch.val := by
  have hslot := h.slot_add_le hi hn
  have hdiv : ∀ j ≤ N, ((b j).currEpoch).val = (b j).currGlobalSlot.slotNumber.val / constants.slotsPerEpoch.val := by
    intro j hj
    rw [← h.slotsPerEpoch hj]
    rfl
  have hi' := hdiv i (by omega)
  have hn' := hdiv n hn
  rw [hepoch, hn'] at hi'
  have hpos : 0 < constants.slotsPerEpoch.val := by
    refine Nat.pos_of_ne_zero fun hzero => hne ?_
    rw [hzero, Nat.div_zero] at hn'
    exact Fin.ext hn'
  have hmi := Nat.div_add_mod (b i).currGlobalSlot.slotNumber.val constants.slotsPerEpoch.val
  have hmn := Nat.div_add_mod (b n).currGlobalSlot.slotNumber.val constants.slotsPerEpoch.val
  have hlt := Nat.mod_lt (b n).currGlobalSlot.slotNumber.val hpos
  rw [← hi'] at hmi
  omega

/-- The length of an epoch that has been entered counts its blocks. -/
theorem epochLength (h : Chain V constants genesisLedger genesisEpochData fork N b snarked) {n m : Nat} (hn : n ≤ N)
    (hstart : epochStart b n = m + 1) : (b n).nextEpochData.epochLength.val = n - m := by
  have hle := epochStart_le b n
  have hgen : ∀ i, m + 1 ≤ i → i ≤ n → (b i).nextEpochData.epochLength.val = i - m := by
    intro i hi
    induction i, hi using Nat.le_induction with
    | base =>
      intro _
      rw [(h.enters hn hstart).2.2, Nat.add_sub_cancel_left]
      rfl
    | succ i hi ih =>
      intro hin
      have hprev := ih (by omega)
      have hsame := h.same_epoch hn i (by omega) (by omega)
      have hsame' := h.same_epoch hn (i + 1) (by omega) hin
      have hfirst := h.same_epoch hn (m + 1) (by omega) (by omega)
      have hne : (b (i + 1)).currEpoch ≠ 0 := by
        have hlt := (h.enters hn hstart).1
        rw [hsame'.1]
        exact (Fin.zero_le _ |>.trans_lt hlt).ne'
      have hslots := h.lt_slotsPerEpoch (i := m + 1) (n := i + 1) (by omega) (by omega)
        (hfirst.1.trans hsame'.1.symm) hne
      have hmax := constants.slotsPerEpoch.isLt
      rcases (h.follows (n := i) (by omega)).epochs with ⟨-, -, -, hlength⟩ | ⟨hlt, -⟩
      · rw [hlength, Length.succ_val (by omega), hprev]
        omega
      · rw [hsame.1, hsame'.1] at hlt
        exact absurd hlt (lt_irrefl _)
  exact hgen n (by omega) (le_refl _)

/-- An epoch that is left has more than `k` blocks. -/
theorem k_le (h : Chain V constants genesisLedger genesisEpochData fork N b snarked) {m : Nat} (hm : m < N)
    (hne : (b (m + 1)).currEpoch ≠ (b m).currEpoch) : constants.k.val ≤ m - epochStart b m := by
  have hcard := h.epochs m hm hne
  have hsub : ((Finset.range (m + 1)).filter fun i => (b i).currEpoch = (b m).currEpoch) ⊆
      Finset.Ico (epochStart b m) (m + 1) := by
    intro i hi
    rw [Finset.mem_filter, Finset.mem_range] at hi
    rw [Finset.mem_Ico]
    refine ⟨?_, hi.1⟩
    by_contra hlt
    have hle := epochStart_le b m
    obtain ⟨p, hp⟩ : ∃ p, epochStart b m = p + 1 := ⟨epochStart b m - 1, by omega⟩
    have hmono := h.epoch_mono (i := i) (n := p) (by omega) (by omega)
    have henters := (h.enters (by omega) hp).1
    rw [hi.2] at hmono
    exact absurd henters hmono.not_gt
  have := Finset.card_le_card hsub
  rw [Nat.card_Ico] at this
  omega

/-! ## The snapshots -/

variable (computeDelegateeTable : Ledger F → D)

/-- **The snapshots are the epoch ledgers of the root.** -/
theorem localState_roots (h : Chain V constants genesisLedger genesisEpochData fork N b snarked) {n : Nat}
    (hn : n ≤ N) :
    (localStateAt constants genesisLedger genesisEpochData computeDelegateeTable b snarked
        n).stakingEpochSnapshot.ledger.merkleRoot = (b (n - constants.k.val)).stakingEpochData.ledger.hash ∧
      (localStateAt constants genesisLedger genesisEpochData computeDelegateeTable b snarked
        n).nextEpochSnapshot.ledger.merkleRoot = (b (n - constants.k.val)).nextEpochData.ledger.hash := by
  induction n with
  | zero =>
    obtain ⟨-, -, hstaking, hnext⟩ := h.first
    rw [Nat.zero_sub, hstaking, hnext, localStateAt, LocalState.create]
    cases genesisEpochData with
    | none => exact ⟨rfl, rfl⟩
    | some data =>
      obtain ⟨staking, next⟩ := data
      cases next <;> exact ⟨rfl, rfl⟩
  | succ n ih =>
    obtain ⟨hstaking, hnext⟩ := ih (by omega)
    rw [localStateAt]
    split
    next hk =>
      rw [Nat.sub_add_comm hk]
      unfold frontierRootTransition
      rcases (h.follows (n := n - constants.k.val) (by omega)).epochs with
        ⟨heq, hstaking', hnext', -⟩ | ⟨hlt, hstaking', hnext', -⟩
      · rw [if_neg (not_not.2 heq.symm), hstaking', hnext']
        exact ⟨hstaking, hnext⟩
      · rw [if_pos hlt.ne, hstaking', hnext']
        by_cases hgenesis : (snarked (n - constants.k.val)).merkleRoot = genesisLedger.merkleRoot
        · rw [if_neg (not_not.2 hgenesis), if_pos hgenesis]
          exact ⟨hnext, hnext⟩
        · rw [if_pos hgenesis, if_neg hgenesis]
          exact ⟨hnext, rfl⟩
    next hk =>
      rw [show n + 1 - constants.k.val = n - constants.k.val by omega]
      exact ⟨hstaking, hnext⟩

end Chain

/-! ## What is selected -/

section Selected

variable {constants} {state : ConsensusState F} {localState : LocalState F D}

theorem succ_ne (e : Length) : e ≠ Length.succ e := by
  intro h
  have hval : e.val = (e.val + 1) % 2 ^ 32 := (Fin.ext_iff.1 h).trans (Fin.val_add e 1)
  have hlt := e.isLt
  omega

omit [DecidableEq F] in
theorem selectEpochSnapshot_curr (hepoch : state.currEpoch ≠ 0)
    (hlength : ¬ constants.k < state.nextEpochData.epochLength) :
    selectEpochSnapshot constants state localState state.currEpoch = (.curr, localState.nextEpochSnapshot) :=
  if_pos (Or.inr ⟨hlength, hepoch⟩)

omit [DecidableEq F] in
theorem selectEpochSnapshot_last
    (hfinal : state.currEpoch = 0 ∨ constants.k < state.nextEpochData.epochLength) :
    selectEpochSnapshot constants state localState state.currEpoch = (.last, localState.stakingEpochSnapshot) := by
  refine if_neg ?_
  rw [not_or, not_and_or, not_not, not_not]
  exact ⟨succ_ne _, hfinal.symm⟩

omit [DecidableEq F] in
theorem selectEpochSnapshot_next :
    selectEpochSnapshot constants state localState (Length.succ state.currEpoch) =
      (.curr, localState.nextEpochSnapshot) :=
  if_pos (Or.inl rfl)

theorem requiredSnapshotSync_eq_none (localState : LocalState F D) (id : SnapshotIdentifier) {root : F}
    (hroot : (localState.getSnapshot id).ledger.merkleRoot = root) : requiredSnapshotSync localState id root = none :=
  if_neg (not_not.2 hroot.symm)

end Selected

/-- **The snapshots follow the chain.** With the root `k` blocks behind the
tip `b n`, the snapshot for the tip's epoch has the root hash of its staking
ledger and nothing is to be synced; once the tip's epoch is more than `k`
blocks long, the snapshot for the next epoch has the root hash of its next
ledger. -/
theorem snapshots_follow_chain (V : Vrf F) (constants : ConsensusConstants) (genesisLedger : Ledger F)
    (genesisEpochData : Option (ConsensusState.GenesisEpochData F)) (fork : Option ConsensusState.Fork)
    (computeDelegateeTable : Ledger F → D) {N : Nat} {b : Nat → ConsensusState F} {snarked : Nat → Ledger F}
    (h : Chain V constants genesisLedger genesisEpochData fork N b snarked) {n : Nat} (hn : n ≤ N) :
    (selectEpochSnapshot constants (b n)
        (localStateAt constants genesisLedger genesisEpochData computeDelegateeTable b snarked n)
        (b n).currEpoch).2.ledger.merkleRoot = (b n).stakingEpochData.ledger.hash ∧
      requiredLocalStateSync constants (b n)
        (localStateAt constants genesisLedger genesisEpochData computeDelegateeTable b snarked n) = none ∧
      (constants.k < (b n).nextEpochData.epochLength →
        (selectEpochSnapshot constants (b n)
          (localStateAt constants genesisLedger genesisEpochData computeDelegateeTable b snarked n)
          (Length.succ (b n).currEpoch)).2.ledger.merkleRoot = (b n).nextEpochData.ledger.hash) := by
  obtain ⟨hstaking, hnext⟩ := h.localState_roots computeDelegateeTable hn
  have hsame := h.same_epoch hn
  have hstart := Chain.epochStart_le b n
  generalize localStateAt constants genesisLedger genesisEpochData computeDelegateeTable b snarked n = localState
    at hstaking hnext
  -- the root is in the tip's epoch, or in the one before it
  by_cases hfinal : (b n).currEpoch = 0 ∨ constants.k < (b n).nextEpochData.epochLength
  case pos =>
    have hroot : epochStart b n ≤ n - constants.k.val := by
      cases hs : epochStart b n with
      | zero => exact Nat.zero_le _
      | succ m =>
        have hlength := h.epochLength hn hs
        rcases hfinal with hzero | hk
        · have hlt := (h.enters hn hs).1
          rw [hzero] at hlt
          exact absurd hlt (Fin.not_lt_zero _)
        · have := Fin.lt_def.1 hk
          omega
    obtain ⟨-, hstaking', hnext'⟩ := hsame (n - constants.k.val) hroot (Nat.sub_le _ _)
    rw [hstaking'] at hstaking
    rw [hnext'] at hnext
    rw [requiredLocalStateSync, selectEpochSnapshot_last hfinal, selectEpochSnapshot_next]
    refine ⟨hstaking, ?_, fun _ => hnext⟩
    simp only [requiredSnapshotSync_eq_none localState .nextEpochSnapshot hnext,
      requiredSnapshotSync_eq_none localState .stakingEpochSnapshot hstaking]
  case neg =>
    rw [not_or] at hfinal
    obtain ⟨hepoch, hlength⟩ := hfinal
    obtain ⟨m, hs⟩ : ∃ m, epochStart b n = m + 1 := by
      refine ⟨epochStart b n - 1, ?_⟩
      have hpos : epochStart b n ≠ 0 := fun hzero => hepoch (h.epochStart_eq_zero hn hzero)
      omega
    obtain ⟨hlt, henter, -⟩ := h.enters hn hs
    have hcount := h.epochLength hn hs
    have hk : (b n).nextEpochData.epochLength.val ≤ constants.k.val := not_lt.1 hlength
    have hfirst := (hsame (m + 1) (by omega) (by omega)).1
    have hprev := h.k_le (m := m) (by omega) (by rw [hfirst]; exact hlt.ne')
    have hle := Chain.epochStart_le b m
    obtain ⟨-, -, hnext'⟩ := h.same_epoch (n := m) (by omega) (n - constants.k.val) (by omega) (by omega)
    rw [hnext', ← henter] at hnext
    rw [requiredLocalStateSync, selectEpochSnapshot_curr hepoch hlength]
    refine ⟨hnext, ?_, fun habs => absurd habs hlength⟩
    simp only [requiredSnapshotSync_eq_none localState .nextEpochSnapshot hnext,
      Option.map_none]

/-! ### A chain into the second epoch -/

def numberVrf : Vrf Nat where
  zero := 0
  initialSeed := 1
  epochSeed seed result := Nat.pair seed result
  truncate _ := ""
  dummyOutput := ""
  genesisEval slot seed := Nat.pair slot.val seed
  genesisWinner := ⟨0, false⟩

/-- Epochs of three slots, and a root one block behind. -/
def smallConstants : ConsensusConstants where
  slotsPerSubWindow := 1
  subWindowsPerWindow := 2
  slotsPerEpoch := 3
  gracePeriodEnd := 0
  k := 1
  slotsPerWindow := 2
  checkpointWindowSizeInSlots := 1

def numberLedger (n : Nat) : Ledger Nat := ⟨n, 0⟩

/-- The blocks after genesis, at the slots 1, 3 and 4. -/
def smallBlock (n : Nat) : ConsensusState.Block Nat where
  consensusTransition := [1, 3, 4].getD n 0
  previousProtocolStateHash := n
  supplyIncrease := 0
  snarkedLedgerHash := (numberLedger n).merkleRoot
  genesisLedgerHash := (numberLedger 0).merkleRoot
  producerVrfResult := n
  blockStakeWinner := ⟨0, false⟩
  blockCreator := ⟨0, false⟩
  coinbaseReceiver := ⟨0, false⟩
  superchargeCoinbase := false

def stateOf : Exn (ConsensusState Nat) → ConsensusState Nat
  | .ok state => state
  | .error _ => ConsensusState.negativeOne numberVrf smallConstants (numberLedger 0) none none

def smallChain : Nat → ConsensusState Nat
  | 0 => stateOf (ConsensusState.createGenesis numberVrf smallConstants (numberLedger 0) none none 0)
  | n + 1 => stateOf (ConsensusState.update numberVrf smallConstants (smallChain n) (smallBlock n))

theorem eq_ok_stateOf {x : Exn (ConsensusState Nat)} (h : x.isOk = true) : x = .ok (stateOf x) := by
  cases x with
  | ok state => rfl
  | error e => cases h

theorem snapshots_follow_smallChain :
    (selectEpochSnapshot smallConstants (smallChain 3)
        (localStateAt smallConstants (numberLedger 0) none (fun _ => ()) smallChain numberLedger 3)
        (smallChain 3).currEpoch).2.ledger.merkleRoot = (smallChain 3).stakingEpochData.ledger.hash ∧
      requiredLocalStateSync smallConstants (smallChain 3)
        (localStateAt smallConstants (numberLedger 0) none (fun _ => ()) smallChain numberLedger 3) = none ∧
      (smallConstants.k < (smallChain 3).nextEpochData.epochLength →
        (selectEpochSnapshot smallConstants (smallChain 3)
          (localStateAt smallConstants (numberLedger 0) none (fun _ => ()) smallChain numberLedger 3)
          (Length.succ (smallChain 3).currEpoch)).2.ledger.merkleRoot = (smallChain 3).nextEpochData.ledger.hash) := by
  refine snapshots_follow_chain numberVrf smallConstants (numberLedger 0) none none (fun _ => ()) (N := 3) ?_
    (le_refl 3)
  refine ⟨⟨0, eq_ok_stateOf (by decide +kernel)⟩, fun n hn => ⟨smallBlock n, rfl, rfl, ?_⟩, ?_, ?_⟩
  · refine eq_ok_stateOf ?_
    revert n
    decide +kernel
  · decide +kernel
  · decide +kernel

end Mina.Consensus
