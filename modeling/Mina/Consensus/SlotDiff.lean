/-
Subtraction of an epoch and a slot from a global slot (`Global_slot.diff`),
and the time before which blocks are garbage (`Consensus_time.get_old`).

The slots of an epoch are borrowed from by a remainder of a difference that
has wrapped around at `2 ^ 32`. So a difference that borrows is right only if
the size of an epoch divides `2 ^ 32` (`borrow_iff`); one that does not is
always right.
-/
import Mina.Consensus.ConsensusTime

namespace Mina.Consensus

/-! ## The functions -/

/-- What `Constants.gc_parameters` returns. -/
structure GcParameters where
  acceptableNetworkDelay : Length
  gcWidth : Length
  gcWidthEpoch : Length
  gcWidthSlot : Length
  gcInterval : Length

def gcParameters (constants : ProtocolConstants) : GcParameters :=
  let delay := Int64.toUInt32 (toMs constants.deltaDuration)
  let gcWidth := delay * 2
  { acceptableNetworkDelay := delay
    gcWidth
    gcWidthEpoch := gcWidth / constants.epochSize
    gcWidthSlot := gcWidth % constants.epochSize
    gcInterval := gcWidth }

variable (constants : ProtocolConstants)

namespace GlobalSlot

def ofEpochAndSlot (p : Length × Length) : GlobalSlot := create constants.toConsensusConstants p.1 p.2

def diff (t : GlobalSlot) (other : Length × Length) : GlobalSlot :=
  let oldEpoch := t.epoch - other.1 - (if other.2 > t.slot then 1 else 0)
  let oldSlot := (t.slot - other.2) % constants.epochSize
  ofEpochAndSlot constants (oldEpoch, oldSlot)

end GlobalSlot

/-- `Consensus_time.get_old`. -/
def getOld (t : GlobalSlot) : GlobalSlot :=
  let p := gcParameters constants
  if t.lt (GlobalSlot.ofEpochAndSlot constants (p.gcWidthEpoch, p.gcWidthSlot)) then
    -- the block is not beyond `gc_width`
    GlobalSlot.zero constants.toConsensusConstants
  else GlobalSlot.diff constants t (p.gcWidthEpoch, p.gcWidthSlot)

/-! ## Borrowing -/

/-- A difference that has wrapped around, modulo the size of an epoch. -/
theorem borrow_iff {n d size : Nat} (hd : 0 < d) (hsize : d < size) (hn : size ≤ n) :
    (n - d) % size = size - d ↔ size ∣ n := by
  have hmod : (n - d) % size = size - d ↔ (size - d) ≡ (n - d) [MOD size] := by
    rw [Nat.ModEq, Nat.mod_eq_of_lt (show size - d < size by omega), eq_comm]
  rw [hmod, Nat.modEq_iff_dvd' (by omega), show n - d - (size - d) = n - size by omega,
    Nat.dvd_sub_iff_left hn dvd_rfl]

theorem Length.sub_val {m n : Length} (h : n.val ≤ m.val) : (m - n).val = m.val - n.val := Fin.sub_val_of_le h

theorem Length.sub_val_wrap {m n : Length} (h : m.val < n.val) : (m - n).val = 2 ^ 32 - (n.val - m.val) := by
  rw [Fin.val_sub]
  omega

section Exact

variable {constants} (hsize : constants.epochSize = constants.slotsPerEpoch)

/-- A slot number that is made of an epoch and a slot and fits. -/
theorem ofEpochAndSlot_val {e s : Length} (hfits : s.val + constants.slotsPerEpoch.val * e.val < 2 ^ 32) :
    (GlobalSlot.ofEpochAndSlot constants (e, s)).slotNumber.val = s.val + constants.slotsPerEpoch.val * e.val := by
  change (s + constants.slotsPerEpoch * e).val = _
  rw [Fin.val_add, Fin.val_mul, Nat.add_mod_mod, Nat.mod_eq_of_lt hfits]

include hsize

theorem diff_val {t e s : Length} (hs : s.val < constants.slotsPerEpoch.val)
    (hle : e.val * constants.slotsPerEpoch.val + s.val ≤ t.val) :
    (GlobalSlot.diff constants (.ofSlotNumber constants.toConsensusConstants t) (e, s)).slotNumber.val =
      t.val - (e.val * constants.slotsPerEpoch.val + s.val) ↔
    s.val ≤ t.val % constants.slotsPerEpoch.val ∨ constants.slotsPerEpoch.val ∣ 2 ^ 32 := by
  have hdiv := Nat.div_add_mod t.val constants.slotsPerEpoch.val
  have hmod := Nat.mod_lt t.val (show 0 < constants.slotsPerEpoch.val by omega)
  have hepoch : (t / constants.slotsPerEpoch).val = t.val / constants.slotsPerEpoch.val := rfl
  have hslot : (t % constants.slotsPerEpoch).val = t.val % constants.slotsPerEpoch.val := rfl
  change (GlobalSlot.ofEpochAndSlot constants
    (t / constants.slotsPerEpoch - e - (if s > t % constants.slotsPerEpoch then 1 else 0),
      (t % constants.slotsPerEpoch - s) % constants.epochSize)).slotNumber.val = _ ↔ _
  rw [hsize]
  generalize hE : constants.slotsPerEpoch.val = E at *
  by_cases hborrow : s.val ≤ t.val % E
  · -- no borrow
    have hep : e.val ≤ t.val / E := by
      by_contra hlt
      have hmul : (t.val / E + 1) * E ≤ e.val * E := Nat.mul_le_mul_right E (by omega)
      rw [Nat.add_mul, Nat.mul_comm (t.val / E)] at hmul
      omega
    have hnot : ¬ s > t % constants.slotsPerEpoch := not_lt.2 (by rw [Fin.le_def, hslot]; exact hborrow)
    have holdEpoch : (t / constants.slotsPerEpoch - e - 0).val = t.val / E - e.val := by
      rw [sub_zero, Length.sub_val (by rw [hepoch]; exact hep), hepoch]
    have holdSlot : ((t % constants.slotsPerEpoch - s) % constants.slotsPerEpoch).val = t.val % E - s.val := by
      rw [Fin.mod_val, Length.sub_val (by rw [hslot]; exact hborrow), hslot, hE, Nat.mod_eq_of_lt (by omega)]
    have hmul : E * (t.val / E - e.val) = E * (t.val / E) - e.val * E := by
      rw [Nat.mul_sub, Nat.mul_comm e.val]
    have hlem : e.val * E ≤ E * (t.val / E) := by
      rw [Nat.mul_comm]
      exact Nat.mul_le_mul_left E hep
    rw [if_neg hnot, ofEpochAndSlot_val (by rw [holdSlot, holdEpoch, hE]; omega), holdSlot, holdEpoch, hE]
    exact ⟨fun _ => .inl hborrow, fun _ => by omega⟩
  · have hep : e.val < t.val / E := by
      by_contra hge
      have hmul : t.val / E * E ≤ e.val * E := Nat.mul_le_mul_right E (not_lt.1 hge)
      rw [Nat.mul_comm (t.val / E)] at hmul
      omega
    have hlt : s > t % constants.slotsPerEpoch := by
      rw [gt_iff_lt, Fin.lt_def, hslot]
      omega
    have holdEpoch : (t / constants.slotsPerEpoch - e - 1).val = t.val / E - e.val - 1 := by
      have hfirst := Length.sub_val (m := t / constants.slotsPerEpoch) (n := e) (by rw [hepoch]; omega)
      rw [Length.sub_val (by rw [hfirst, hepoch]; exact Nat.sub_pos_of_lt hep), hfirst, hepoch]
      rfl
    have holdSlot : ((t % constants.slotsPerEpoch - s) % constants.slotsPerEpoch).val =
        (2 ^ 32 - (s.val - t.val % E)) % E := by
      rw [Fin.mod_val, Length.sub_val_wrap (by rw [hslot]; omega), hslot, hE]
    have hrest := Nat.mod_lt (2 ^ 32 - (s.val - t.val % E)) (show 0 < E by omega)
    have hmul : E * (t.val / E - e.val - 1) + E = E * (t.val / E) - e.val * E := by
      obtain ⟨k, hk⟩ := Nat.exists_eq_add_of_lt hep
      rw [hk, show e.val + k + 1 - e.val - 1 = k by omega, Nat.mul_add, Nat.mul_add, Nat.mul_one, Nat.mul_comm e.val]
      omega
    have hlem : e.val * E ≤ E * (t.val / E) := by
      rw [Nat.mul_comm]
      exact Nat.mul_le_mul_left E hep.le
    rw [if_pos hlt, ofEpochAndSlot_val (by rw [holdSlot, holdEpoch, hE]; omega), holdSlot, holdEpoch, hE,
      ← @borrow_iff (2 ^ 32) (s.val - t.val % E) E (by omega) (by omega) (by omega)]
    constructor
    · intro heq
      exact .inr (by omega)
    · intro hcond
      have heq := hcond.resolve_left hborrow
      omega

theorem getOld_val {t : Length} (hpos : 0 < constants.slotsPerEpoch.val) :
    (getOld constants (.ofSlotNumber constants.toConsensusConstants t)).slotNumber.val =
      t.val - (gcParameters constants).gcWidth.val ↔
    t.val < (gcParameters constants).gcWidth.val ∨
      (gcParameters constants).gcWidth.val % constants.slotsPerEpoch.val ≤ t.val % constants.slotsPerEpoch.val ∨
        constants.slotsPerEpoch.val ∣ 2 ^ 32 := by
  generalize hp : gcParameters constants = p
  have hepoch : p.gcWidthEpoch.val = p.gcWidth.val / constants.slotsPerEpoch.val := by
    rw [← hp, ← hsize]
    rfl
  have hslot : p.gcWidthSlot.val = p.gcWidth.val % constants.slotsPerEpoch.val := by
    rw [← hp, ← hsize]
    rfl
  have hwidth : p.gcWidthEpoch.val * constants.slotsPerEpoch.val + p.gcWidthSlot.val = p.gcWidth.val := by
    rw [hepoch, hslot, Nat.div_add_mod']
  have hgs : (GlobalSlot.ofEpochAndSlot constants (p.gcWidthEpoch, p.gcWidthSlot)).slotNumber.val = p.gcWidth.val := by
    have hcomm := Nat.mul_comm constants.slotsPerEpoch.val p.gcWidthEpoch.val
    rw [ofEpochAndSlot_val (by omega)]
    omega
  have hlt : GlobalSlot.lt (.ofSlotNumber constants.toConsensusConstants t)
      (GlobalSlot.ofEpochAndSlot constants (p.gcWidthEpoch, p.gcWidthSlot)) = true ↔ t.val < p.gcWidth.val := by
    rw [GlobalSlot.lt, decide_eq_true_iff, Fin.lt_def, hgs]
    rfl
  have hmod := Nat.mod_lt p.gcWidth.val hpos
  simp only [getOld, hp, hlt]
  split
  next hbefore =>
    refine ⟨fun _ => .inl hbefore, fun _ => ?_⟩
    rw [Nat.sub_eq_zero_of_le hbefore.le]
    rfl
  next hbeyond =>
    rw [← hslot, or_iff_right hbeyond, ← diff_val hsize (e := p.gcWidthEpoch) (by omega) (by omega), hwidth]

/-- The first slot of the second epoch, less one slot, borrows. -/
theorem dvd_of_exact (htwo : 1 < constants.slotsPerEpoch.val)
    (hdiff : (1 : Length).val < constants.slotsPerEpoch.val →
      (0 : Length).val * constants.slotsPerEpoch.val + (1 : Length).val ≤ constants.slotsPerEpoch.val →
      (GlobalSlot.diff constants (.ofSlotNumber constants.toConsensusConstants constants.slotsPerEpoch)
        (0, 1)).slotNumber.val =
          constants.slotsPerEpoch.val - ((0 : Length).val * constants.slotsPerEpoch.val + (1 : Length).val)) :
    constants.slotsPerEpoch.val ∣ 2 ^ 32 := by
  have hone : (1 : Length).val = 1 := by decide
  have hsum : (0 : Length).val * constants.slotsPerEpoch.val + (1 : Length).val = 1 := by
    rw [Fin.val_zero, Nat.zero_mul, hone]
  have hborrow := diff_val (e := 0) (s := 1) (t := constants.slotsPerEpoch) hsize (hone ▸ htwo) (hsum ▸ htwo.le)
  have hcond := hborrow.1 (hdiff (hone ▸ htwo) (hsum ▸ htwo.le))
  rw [Nat.mod_self, hone] at hcond
  exact hcond.resolve_left (Nat.not_succ_le_zero 0)

theorem getOld_mono (hpos : 0 < constants.slotsPerEpoch.val) (hdvd : constants.slotsPerEpoch.val ∣ 2 ^ 32) :
    ∀ t t' : Length, t ≤ t' → (getOld constants (.ofSlotNumber constants.toConsensusConstants t)).slotNumber ≤
      (getOld constants (.ofSlotNumber constants.toConsensusConstants t')).slotNumber := by
  have hval : ∀ t : Length, (getOld constants (.ofSlotNumber constants.toConsensusConstants t)).slotNumber.val =
      t.val - (gcParameters constants).gcWidth.val := fun t => (getOld_val hsize hpos).2 (.inr (.inr hdvd))
  intro t t' hle
  refine Fin.le_def.2 ?_
  rw [hval, hval]
  exact Nat.sub_le_sub_right (Fin.le_def.1 hle) _

/-- **Subtraction of an epoch and a slot is exact, for all slots, exactly when
the size of an epoch divides `2 ^ 32`.** Then the time of the garbage is exact
as well, and monotone. For one slot it is also exact when nothing is borrowed
from the epoch. -/
theorem slotDiff_exact_iff (hpos : 0 < constants.slotsPerEpoch.val) :
    (((∀ t e s : Length, s.val < constants.slotsPerEpoch.val →
          e.val * constants.slotsPerEpoch.val + s.val ≤ t.val →
          (GlobalSlot.diff constants (.ofSlotNumber constants.toConsensusConstants t) (e, s)).slotNumber.val =
            t.val - (e.val * constants.slotsPerEpoch.val + s.val)) ∧
        (∀ t : Length, (getOld constants (.ofSlotNumber constants.toConsensusConstants t)).slotNumber.val =
          t.val - (gcParameters constants).gcWidth.val) ∧
        ∀ t t' : Length, t ≤ t' → (getOld constants (.ofSlotNumber constants.toConsensusConstants t)).slotNumber ≤
          (getOld constants (.ofSlotNumber constants.toConsensusConstants t')).slotNumber) ↔
      constants.slotsPerEpoch.val ∣ 2 ^ 32) ∧
    (∀ t e s : Length, s.val < constants.slotsPerEpoch.val →
      e.val * constants.slotsPerEpoch.val + s.val ≤ t.val →
      ((GlobalSlot.diff constants (.ofSlotNumber constants.toConsensusConstants t) (e, s)).slotNumber.val =
          t.val - (e.val * constants.slotsPerEpoch.val + s.val) ↔
        s.val ≤ t.val % constants.slotsPerEpoch.val ∨ constants.slotsPerEpoch.val ∣ 2 ^ 32)) ∧
    ∀ t : Length, (getOld constants (.ofSlotNumber constants.toConsensusConstants t)).slotNumber.val =
        t.val - (gcParameters constants).gcWidth.val ↔
      t.val < (gcParameters constants).gcWidth.val ∨
        (gcParameters constants).gcWidth.val % constants.slotsPerEpoch.val ≤ t.val % constants.slotsPerEpoch.val ∨
          constants.slotsPerEpoch.val ∣ 2 ^ 32 := by
  refine ⟨⟨fun ⟨hdiff, _, _⟩ => ?_, fun hdvd => ?_⟩, fun t e s hs hle => diff_val hsize hs hle,
    fun t => getOld_val hsize hpos⟩
  · by_contra hnot
    have htwo : 1 < constants.slotsPerEpoch.val := by
      by_contra hle
      have hone : constants.slotsPerEpoch.val = 1 := by omega
      rw [hone] at hnot
      exact hnot (one_dvd _)
    exact hnot (dvd_of_exact hsize htwo fun hs hle => hdiff constants.slotsPerEpoch 0 1 hs hle)
  · exact ⟨fun t e s hs hle => (diff_val hsize hs hle).2 (.inr hdvd),
      fun t => (getOld_val hsize hpos).2 (.inr (.inr hdvd)), getOld_mono hsize hpos hdvd⟩

end Exact

namespace Sample

/-- Epochs of 7140 slots of three minutes. -/
def threeMinutes : ProtocolConstants where
  slotsPerSubWindow := 7
  subWindowsPerWindow := 11
  slotsPerEpoch := 7140
  gracePeriodEnd := 1440
  k := 290
  slotsPerWindow := 77
  checkpointWindowSizeInSlots := 14600
  delta := 0
  epochSize := 7140
  checkpointWindowSlotsPerYear := 175200
  blockWindowDurationMs := 180000
  slotDurationMs := 180000
  epochDuration := 1285200000
  deltaDuration := 180000
  genesisStateTimestamp := 0

/-- Epochs of 4096 slots. -/
def powerOfTwo : ProtocolConstants := { threeMinutes with slotsPerEpoch := 4096, epochSize := 4096 }

end Sample

/-- One slot before the first slot of the second epoch. -/
theorem slotDiff_inexact :
    ¬ ∀ constants : ProtocolConstants, constants.epochSize = constants.slotsPerEpoch → 0 < constants.slotsPerEpoch.val →
      ∀ t e s : Length, s.val < constants.slotsPerEpoch.val → e.val * constants.slotsPerEpoch.val + s.val ≤ t.val →
        (GlobalSlot.diff constants (.ofSlotNumber constants.toConsensusConstants t) (e, s)).slotNumber.val =
          t.val - (e.val * constants.slotsPerEpoch.val + s.val) := fun hexact =>
  absurd (hexact Sample.threeMinutes rfl (by decide) 7140 0 1 (by decide) (by decide)) (by decide)

/-- Three slots less than the fourth slot of the second epoch of 4096. -/
theorem slotDiff_exact_powerOfTwo :
    (GlobalSlot.diff Sample.powerOfTwo (.ofSlotNumber Sample.powerOfTwo.toConsensusConstants 4099) (0, 7)).slotNumber.val =
      4092 :=
  ((@slotDiff_exact_iff Sample.powerOfTwo rfl (by decide)).2.1 4099 0 7 (by decide) (by decide)).2
    (.inr (by decide))

end Mina.Consensus
