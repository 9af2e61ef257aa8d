/-
Chain selection is consistent between nodes (`select_consistent`).

The choice is a comparison by keys, one after the other: the virtual min window
density (for a long range fork only), the length, the digest of the VRF output
and the hash of the state. The conditions of the branches are symmetric: the
short range is a disjunction of both orders, and both densities are projected
to the later of the two slots. The density depends on the other chain, so it
orders only two states at a time; among states in the short range of each other
it is not compared, and the keys are those of the states alone.
-/
import Mina.Consensus.Hooks
import Mina.Base.Preference

namespace Mina.Consensus.Hooks

/-! ## Keys -/

section Key

variable {α β : Type} [Ord β] [Std.TransOrd β] [Std.LawfulEqOrd β] {S : Set α} {r : α → α → Bool}

omit [Std.TransOrd β] in
theorem lessThanOrEqualWhen_iff {a b : β} {condition : Bool} :
    lessThanOrEqualWhen a b condition = true ↔ compare a b = .lt ∨ a = b ∧ condition = true := by
  simp [lessThanOrEqualWhen]

/-- An order by a key, and where it is equal by another order. -/
theorem strictlyOrders_key (h : StrictlyOrders S r) (key : α → β) :
    StrictlyOrders S fun a b => lessThanOrEqualWhen (key a) (key b) (r a b) := by
  refine ⟨fun a ha b hb hab => ?_, fun a ha b hb c hc hab hbc => ?_⟩
  · rw [← Bool.not_eq_true, lessThanOrEqualWhen_iff]
    intro hba
    rcases lessThanOrEqualWhen_iff.1 hab with hlt | heq
    · rcases hba with hlt' | heq'
      · rw [Std.OrientedOrd.eq_swap, hlt] at hlt'
        cases hlt'
      · rw [heq'.1, Std.ReflOrd.compare_self] at hlt
        cases hlt
    · rcases hba with hlt' | heq'
      · rw [heq.1, Std.ReflOrd.compare_self] at hlt'
        cases hlt'
      · rw [h.asymm a ha b hb heq.2] at heq'
        cases heq'.2
  · rw [lessThanOrEqualWhen_iff] at hab hbc ⊢
    rcases hab with hab | hab
    · refine .inl ?_
      rcases hbc with hbc | hbc
      · exact Std.TransCmp.lt_trans hab hbc
      · rwa [← hbc.1]
    · rcases hbc with hbc | hbc
      · rw [hab.1]
        exact .inl hbc
      · exact .inr ⟨hab.1.trans hbc.1, h.trans a ha b hb c hc hab.2 hbc.2⟩

theorem preference_key (h : Preference S r) (key : α → β) :
    Preference S fun a b => lessThanOrEqualWhen (key a) (key b) (r a b) := by
  refine ⟨strictlyOrders_key h.toStrictlyOrders key, fun a ha b hb hne => ?_⟩
  rw [lessThanOrEqualWhen_iff, lessThanOrEqualWhen_iff]
  cases hcompare : compare (key a) (key b) with
  | lt => exact .inl (.inl rfl)
  | gt =>
    refine .inr (.inl ?_)
    rw [Std.OrientedOrd.eq_swap, hcompare]
    rfl
  | eq =>
    have heq := Std.LawfulEqOrd.compare_eq_iff_eq.1 hcompare
    rcases h.total a ha b hb hne with hab | hba
    · exact .inl (.inr ⟨heq, hab⟩)
    · exact .inr (.inr ⟨heq.symm, hba⟩)

end Key

section Select

variable {F : Type} [LinearOrder F] {constants : ConsensusConstants} {blake2 : String → String}

theorem strictlyOrders_hash (S : Set (WithHash F)) :
    StrictlyOrders S fun existing candidate => candidate.hash > existing.hash :=
  ⟨fun _ _ _ _ hab => decide_eq_false (not_lt.2 (of_decide_eq_true hab).le),
    fun _ _ _ _ _ _ hab hbc => decide_eq_true ((of_decide_eq_true hab).trans (of_decide_eq_true hbc))⟩

/-- States with different hashes are preferred by them. -/
theorem preference_hash {S : Set (WithHash F)} (hinj : Set.InjOn WithHash.hash S) :
    Preference S fun existing candidate => candidate.hash > existing.hash := by
  refine ⟨strictlyOrders_hash S, fun a ha b hb hne => ?_⟩
  rcases lt_or_gt_of_ne fun heq => hne (hinj ha hb heq) with hlt | hgt
  · exact .inl (decide_eq_true hlt)
  · exact .inr (decide_eq_true hgt)

theorem strictlyOrders_length (S : Set (WithHash F)) : StrictlyOrders S (blockchainLengthIsLonger blake2) :=
  strictlyOrders_key (strictlyOrders_key (strictlyOrders_hash S) fun s => blake2 s.data.lastVrfOutput)
    fun s => s.data.blockchainLength

theorem preference_length {S : Set (WithHash F)} (hinj : Set.InjOn WithHash.hash S) :
    Preference S (blockchainLengthIsLonger blake2) :=
  preference_key (preference_key (preference_hash hinj) fun s => blake2 s.data.lastVrfOutput)
    fun s => s.data.blockchainLength

/-! ## Symmetry of the conditions -/

/-- The assertion of `in_seed_update_range` holds of the constants. -/
def Thirds (constants : ConsensusConstants) : Prop := constants.slotsPerEpoch = 3 * (constants.slotsPerEpoch / 3)

theorem exists_predCase (h : Thirds constants) (c1 c2 : ConsensusState F) :
    ∃ b, predCase constants c1 c2 = .ok b := by
  have hrange : ∃ inRange, inSeedUpdateRange constants (Length.succ c1.currSlot) = .ok inRange :=
    ⟨_, Exn.assert_eq_ok.2 ⟨decide_eq_true h, rfl⟩⟩
  obtain ⟨inRange, hrange⟩ := hrange
  exact ⟨_, by rw [predCase, hrange, Exn.andThen_ok]⟩

theorem exists_isShortRange (h : Thirds constants) (c1 c2 : ConsensusState F) :
    ∃ b, isShortRange constants c1 c2 = .ok b := by
  rw [isShortRange]
  split
  · exact ⟨_, rfl⟩
  · obtain ⟨b, hb⟩ := exists_predCase h c1 c2
    obtain ⟨b', hb'⟩ := exists_predCase h c2 c1
    rw [hb, Exn.andThen_ok, hb']
    split <;> exact ⟨_, rfl⟩

theorem isShortRange_comm (h : Thirds constants) (c1 c2 : ConsensusState F) :
    isShortRange constants c1 c2 = isShortRange constants c2 c1 := by
  rw [isShortRange, isShortRange]
  by_cases hepoch : c1.currEpoch = c2.currEpoch
  · rw [if_pos hepoch, if_pos hepoch.symm]
    simp only [eq_comm]
  · obtain ⟨b, hb⟩ := exists_predCase h c1 c2
    obtain ⟨b', hb'⟩ := exists_predCase h c2 c1
    rw [if_neg hepoch, if_neg (Ne.symm hepoch), hb, hb', Exn.andThen_ok, Exn.andThen_ok]
    cases b <;> cases b' <;> rfl

omit [LinearOrder F] in
/-- The density is projected to a slot number: where the slots are equal but
for the length of an epoch, no sub-window is entered. -/
theorem virtualMinWindowDensity_congr {m m' : GlobalSlot} (h : m.slotNumber = m'.slotNumber)
    (s : ConsensusState F) : virtualMinWindowDensity constants m s = virtualMinWindowDensity constants m' s := by
  have same : ∀ {m : GlobalSlot}, s.currGlobalSlot.slotNumber = m.slotNumber →
      virtualMinWindowDensity constants m s = s.minWindowDensity := by
    intro m hm
    rw [virtualMinWindowDensity]
    split
    · rfl
    · rw [MinWindowDensity.updateMinWindowDensity]
      dsimp only
      rw [if_pos (.inl (by rw [GlobalSubWindow.ofGlobalSlot, GlobalSubWindow.ofGlobalSlot, hm]))]
  by_cases hs : s.currGlobalSlot.slotNumber = m.slotNumber
  · rw [same hs, same (hs.trans h)]
  · rw [virtualMinWindowDensity, virtualMinWindowDensity, if_neg fun heq => hs heq.1,
      if_neg fun heq => hs (heq.1.trans h.symm)]
    obtain ⟨n, e⟩ := m
    obtain ⟨n', e'⟩ := m'
    obtain rfl : n = n' := h
    rfl

theorem max_comm (t1 t2 : GlobalSlot) : (GlobalSlot.max t1 t2).slotNumber = (GlobalSlot.max t2 t1).slotNumber := by
  rw [GlobalSlot.max, GlobalSlot.max, GlobalSlot.lt, GlobalSlot.lt]
  rcases lt_trichotomy t1.slotNumber t2.slotNumber with hlt | heq | hgt
  · simp [hlt, not_lt.2 hlt.le]
  · simp [heq]
  · simp [hgt, not_lt.2 hgt.le]

/-- The density of a state, projected to the later slot of two. -/
def densityWith (constants : ConsensusConstants) (a b s : WithHash F) : Length :=
  virtualMinWindowDensity constants (GlobalSlot.max a.data.currGlobalSlot b.data.currGlobalSlot) s.data

/-! ## Selection -/

variable (constants blake2)

/-- Of two states, the choice is the same in both orders. -/
theorem exists_choice (h : Thirds constants) {a b : WithHash F} (hne : a.hash ≠ b.hash) :
    ∃ r, Preference {a, b} r ∧ ∀ x ∈ ({a, b} : Set (WithHash F)), ∀ y ∈ ({a, b} : Set (WithHash F)), x ≠ y →
      select constants blake2 x y = .ok (if r x y then .take else .keep) := by
  have hinj : Set.InjOn WithHash.hash {a, b} := by
    rw [Set.injOn_pair]
    exact fun heq => absurd heq hne
  obtain ⟨short, hshort⟩ := exists_isShortRange h a.data b.data
  have hshort' : ∀ x ∈ ({a, b} : Set (WithHash F)), ∀ y ∈ ({a, b} : Set (WithHash F)), x ≠ y →
      isShortRange constants x.data y.data = .ok short := by
    rintro x (rfl | rfl) y (rfl | rfl) hxy
    · exact absurd rfl hxy
    · exact hshort
    · rw [isShortRange_comm h]
      exact hshort
    · exact absurd rfl hxy
  cases short with
  | true =>
    refine ⟨blockchainLengthIsLonger blake2, preference_length hinj, fun x hx y hy hxy => ?_⟩
    rw [select, hshort' x hx y hy hxy]
    rfl
  | false =>
    refine ⟨_, preference_key (@preference_length F _ blake2 _ hinj) (densityWith constants a b),
      fun x hx y hy hxy => ?_⟩
    have hmax : (GlobalSlot.max y.data.currGlobalSlot x.data.currGlobalSlot).slotNumber =
        (GlobalSlot.max a.data.currGlobalSlot b.data.currGlobalSlot).slotNumber := by
      rcases hx with rfl | rfl <;> rcases hy with rfl | rfl
      · exact absurd rfl hxy
      · exact max_comm _ _
      · rfl
      · exact absurd rfl hxy
    rw [select, hshort' x hx y hy hxy, Exn.andThen_ok]
    dsimp only
    rw [if_neg Bool.false_ne_true, longForkChainQualityIsBetter, virtualMinWindowDensity_congr hmax,
      virtualMinWindowDensity_congr hmax]
    rfl

/-- A node that is offered candidates one after the other. -/
def arrive (best candidate : WithHash F) : Exn (WithHash F) :=
  (select constants blake2 best candidate).andThen fun status => .ok (if status = .take then candidate else best)

def winner (best : WithHash F) (candidates : List (WithHash F)) : Exn (WithHash F) :=
  Exn.fold (arrive constants blake2) best candidates

variable {constants blake2}

theorem isShortRange_self (c : ConsensusState F) : isShortRange constants c c = .ok true := by
  rw [isShortRange, if_pos rfl, decide_eq_true rfl]

theorem select_of_short {a b : WithHash F} (hshort : isShortRange constants a.data b.data = .ok true) :
    select constants blake2 a b = .ok (if blockchainLengthIsLonger blake2 a b then .take else .keep) := by
  rw [select, hshort]
  rfl

theorem select_eq_take {a b : WithHash F} (hshort : isShortRange constants a.data b.data = .ok true) :
    select constants blake2 a b = .ok .take ↔ blockchainLengthIsLonger blake2 a b = true := by
  rw [select_of_short hshort]
  cases blockchainLengthIsLonger blake2 a b <;> simp

theorem arrive_of_short {a b : WithHash F} (hshort : isShortRange constants a.data b.data = .ok true) :
    arrive constants blake2 a b = .ok (if blockchainLengthIsLonger blake2 a b then b else a) := by
  rw [arrive, select_of_short hshort]
  cases blockchainLengthIsLonger blake2 a b <;> rfl

/-- **Chain selection is consistent between nodes.** Of two states with
different hashes, one is taken over the other in exactly one order. Among
states in the short range of each other taking is transitive, and if their
hashes are different, the winner does not depend on the order in which they
arrive. -/
theorem select_consistent (h : Thirds constants) :
    (∀ a b : WithHash F, a.hash ≠ b.hash → ∃ s s', select constants blake2 a b = .ok s ∧
      select constants blake2 b a = .ok s' ∧ (s = .take ↔ s' = .keep)) ∧
    ∀ S : Set (WithHash F),
      (∀ a ∈ S, ∀ b ∈ S, a ≠ b → isShortRange constants a.data b.data = .ok true) →
      (∀ a ∈ S, ∀ b ∈ S, ∀ c ∈ S, select constants blake2 a b = .ok .take → select constants blake2 b c = .ok .take →
        select constants blake2 a c = .ok .take) ∧
      (Set.InjOn WithHash.hash S → ∀ best candidates best' candidates', (∀ x ∈ best :: candidates, x ∈ S) →
        (best :: candidates).Perm (best' :: candidates') →
          ∃ w, winner constants blake2 best candidates = .ok w ∧ winner constants blake2 best' candidates' = .ok w) := by
  refine ⟨fun a b hne => ?_, fun S hshort => ?_⟩
  · obtain ⟨r, hr, hselect⟩ := exists_choice constants blake2 h hne
    have hab : a ≠ b := fun heq => hne (by rw [heq])
    refine ⟨_, _, hselect a (by simp) b (by simp) hab, hselect b (by simp) a (by simp) hab.symm, ?_⟩
    have hiff := hr.iff_not (by simp) (by simp) hab
    cases hb : r b a with
    | false => simp [hiff.2 hb]
    | true =>
      have ha : r a b = false := hr.asymm b (by simp) a (by simp) hb
      simp [ha]
  · have hshort : ∀ a ∈ S, ∀ b ∈ S, isShortRange constants a.data b.data = .ok true := by
      intro a ha b hb
      by_cases heq : a = b
      · rw [heq, isShortRange_self]
      · exact hshort a ha b hb heq
    refine ⟨fun a ha b hb c hc hab hbc => ?_, fun hinj best candidates best' candidates' hS hperm => ?_⟩
    · rw [select_eq_take (hshort a ha b hb)] at hab
      rw [select_eq_take (hshort b hb c hc)] at hbc
      rw [select_eq_take (hshort a ha c hc)]
      exact (strictlyOrders_length S).trans a ha b hb c hc hab hbc
    · exact (preference_length hinj).fold_perm (fun a ha b hb => arrive_of_short (hshort a ha b hb)) hS hperm

end Select

namespace Sample

def constants : ConsensusConstants where
  slotsPerSubWindow := 1
  subWindowsPerWindow := 2
  slotsPerEpoch := 6
  gracePeriodEnd := 3
  k := 1
  slotsPerWindow := 2
  checkpointWindowSizeInSlots := 1

def epochData (lockCheckpoint : Nat) : EpochData Nat where
  ledger := ⟨0, 0⟩
  seed := 0
  startCheckpoint := 0
  lockCheckpoint
  epochLength := 1

/-- A state in a slot of the first epoch. -/
def state (slotNumber blockchainLength minWindowDensity : Length) (lockCheckpoint : Nat) : ConsensusState Nat where
  blockchainLength
  epochCount := 0
  minWindowDensity
  subWindowDensities := [minWindowDensity, 0]
  lastVrfOutput := ""
  totalCurrency := 0
  currGlobalSlot := ⟨slotNumber, 6⟩
  globalSlotSinceGenesis := slotNumber
  stakingEpochData := epochData lockCheckpoint
  nextEpochData := epochData lockCheckpoint
  hasAncestorInSameCheckpointWindow := false
  blockStakeWinner := ⟨0, false⟩
  blockCreator := ⟨0, false⟩
  coinbaseReceiver := ⟨0, false⟩
  superchargeCoinbase := false

end Sample

/-- Three states of one length in different slots. -/
theorem select_consistent_sample : ∃ w,
    winner Sample.constants id ⟨1, Sample.state 2 5 1 7⟩ [⟨2, Sample.state 3 5 1 7⟩, ⟨3, Sample.state 4 5 1 7⟩] = .ok w ∧
      winner Sample.constants id ⟨3, Sample.state 4 5 1 7⟩ [⟨1, Sample.state 2 5 1 7⟩, ⟨2, Sample.state 3 5 1 7⟩] =
        .ok w := by
  have hthirds : Thirds Sample.constants := rfl
  let S : Set (WithHash Nat) :=
    {⟨1, Sample.state 2 5 1 7⟩, ⟨2, Sample.state 3 5 1 7⟩, ⟨3, Sample.state 4 5 1 7⟩}
  have hshort : ∀ a ∈ S, ∀ b ∈ S, a ≠ b → isShortRange Sample.constants a.data b.data = .ok true := by
    rintro a (rfl | rfl | rfl) b (rfl | rfl | rfl) - <;> decide +kernel
  have hinj : Set.InjOn WithHash.hash S := by
    rintro a (rfl | rfl | rfl) b (rfl | rfl | rfl) hab <;> first | rfl | cases hab
  refine ((select_consistent hthirds).2 S hshort).2 hinj _ _ _ _ (by simp [S]) ?_
  exact @List.perm_append_comm _ [_, _] [_]

end Mina.Consensus.Hooks
