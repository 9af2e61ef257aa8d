/-
Blocks are accepted exactly within their time window, as long as the times are
non-negative as signed integers of 64 bits (`receivedWithinWindow_iff`).

A time is decomposed by two divisions into an epoch and a slot, whose global
slot number is the number of slot durations since genesis (`globalSlot_eq`).
The difference of two pairs is computed by cases on the difference of their
epochs, and is that of their global slot numbers modulo `2 ^ 64`, so it is
right exactly when that fits (`diffInSlots_eq`).
-/
import Mina.Consensus.ConsensusTime

namespace Mina.Consensus

/-- The durations that the constants are created with do not overflow. -/
structure DurationsFit (constants : ProtocolConstants) : Prop where
  epoch : constants.slotDurationMs.val * constants.epochSize.val < 2 ^ 32
  delta : constants.slotDurationMs.val * (constants.delta.val + 1) < 2 ^ 32

/-- What is known of the durations then. -/
structure Durations (constants : ProtocolConstants) : Prop where
  slot : 0 < constants.slotDurationMs.val
  epoch : constants.epochDuration.val = constants.slotDurationMs.val * constants.epochSize.val
  epochFits : constants.epochDuration.val < 2 ^ 32
  deltaFits : constants.slotDurationMs.val * (constants.delta.val + 1) < 2 ^ 32

theorem toTimespan_val (n : Length) : (ProtocolConstants.toTimespan n).val = n.val := by
  have := Int64.toUInt64_of_fits (n := n.val) (by omega) (by omega)
  exact_mod_cast this

/-- An instance of `Constants.create`. -/
theorem ProtocolConstants.create_durations {constraintConstants : ConstraintConstants} {protocol : Protocol}
    {constants : ProtocolConstants} (h : create constraintConstants protocol = .ok constants)
    (hfit : DurationsFit constants) : Durations constants := by
  obtain ⟨constants', h', h⟩ := Exn.andThen_eq_ok.1 h
  obtain ⟨slotsPerYear, -, h⟩ := Exn.andThen_eq_ok.1 h
  obtain ⟨-, h⟩ := Exn.assert_eq_ok.1 h
  obtain ⟨nDays, hdays, h'⟩ := Exn.andThen_eq_ok.1 h'
  have hslot : constant constraintConstants.blockWindowDurationMs ≠ 0 := by
    intro hzero
    rw [Length.div, if_pos hzero] at hdays
    cases hdays
  obtain ⟨hepoch, hdelta⟩ := hfit
  cases h
  cases h'
  dsimp only at hepoch hdelta
  rw [toTimespan_val] at hepoch hdelta
  have hval : (constant constraintConstants.blockWindowDurationMs * constant protocol.slotsPerEpoch).val =
      (constant constraintConstants.blockWindowDurationMs).val * (constant protocol.slotsPerEpoch).val := by
    rw [Fin.val_mul, Nat.mod_eq_of_lt hepoch]
  refine ⟨?_, ?_, ?_, ?_⟩
  · dsimp only
    rw [toTimespan_val]
    exact Nat.pos_of_ne_zero fun hzero => hslot (Fin.ext hzero)
  · dsimp only
    rw [toTimespan_val, toTimespan_val, hval]
  · dsimp only
    rw [toTimespan_val, hval]
    exact hepoch
  · dsimp only
    rw [toTimespan_val]
    exact hdelta

/-! ## Differences -/

def globalSlot (constants : ProtocolConstants) (t : Length × Length) : Int :=
  t.1.val * constants.epochSize.val + t.2.val

/-- The difference of two global slot numbers, wrapped around. -/
theorem diffInSlots_eq_int64 (constants : ProtocolConstants) (t t' : Length × Length) :
    Epoch.diffInSlots constants t t' = int64 (globalSlot constants t - globalSlot constants t') := by
  have hepochs : int64 ((t.1.val : Int) - t'.1.val) = t.1.val - t'.1.val := int64_of_fits ⟨by omega, by omega⟩
  simp only [Epoch.diffInSlots, hepochs, int64_add_left, int64_add_right, int64_sub_left, int64_sub_right,
    int64_mul_left, globalSlot]
  split
  next =>
    congr 1
    ring
  next =>
    split
    next =>
      congr 1
      ring
    next =>
      have hsame : (t.1.val : Int) = t'.1.val := by omega
      rw [hsame]
      congr 1
      ring

/-- The difference is right exactly when it fits. -/
theorem diffInSlots_eq (constants : ProtocolConstants) (t t' : Length × Length) :
    Epoch.diffInSlots constants t t' = globalSlot constants t - globalSlot constants t' ↔
      Fits64 (globalSlot constants t - globalSlot constants t') := by
  rw [diffInSlots_eq_int64, int64_eq_iff]

/-! ## Times -/

theorem toMs_of_lt {t : Time} (h : t.val < 2 ^ 63) : toMs t = t.val := Int64.ofUInt64_of_fits h

/-- Times are divided as natural numbers. -/
theorem div_toMs {t d : Time} (ht : t.val < 2 ^ 63) (hd : d.val < 2 ^ 63) (hpos : 0 < d.val) :
    Int64.div (toMs t) (toMs d) = .ok ((t.val / d.val : Nat) : Int) := by
  rw [toMs_of_lt ht, toMs_of_lt hd, Int64.div_of_pos (by omega) (by omega) (by omega), Int.natCast_ediv]

section Times

variable {constants : ProtocolConstants} (h : Durations constants)

/-- A number of slots is one of epochs and one of slots. -/
theorem div_mul_add_mod_div (d s n : Nat) : d / (s * n) * n + d % (s * n) / s = d / s := by
  rcases Nat.eq_zero_or_pos s with rfl | hs
  · simp
  · rw [← Nat.div_div_eq_div_mul, Nat.mod_mul_right_div_self]
    exact Nat.div_add_mod' (d / s) n

include h

theorem slotDuration_lt : constants.slotDurationMs.val < 2 ^ 32 :=
  (Nat.le_mul_of_pos_right constants.slotDurationMs.val (show 0 < constants.delta.val + 1 by omega)).trans_lt
    h.deltaFits

theorem toMs_slotDuration : toMs constants.slotDurationMs = constants.slotDurationMs.val :=
  toMs_of_lt (by have := slotDuration_lt h; omega)

theorem toMs_epochDuration : toMs constants.epochDuration = constants.epochDuration.val :=
  toMs_of_lt (by have := h.epochFits; omega)

theorem ofTimeExn_eq {t : Time} (hgenesis : constants.genesisStateTimestamp ≤ t) (ht : t.val < 2 ^ 63)
    (hpos : 0 < constants.epochDuration.val)
    (hepoch : (t.val - constants.genesisStateTimestamp.val) / constants.epochDuration.val < 2 ^ 32) :
    ∃ epoch, Epoch.ofTimeExn constants t = .ok epoch ∧
      epoch.val = (t.val - constants.genesisStateTimestamp.val) / constants.epochDuration.val := by
  have hdiff : (t - constants.genesisStateTimestamp).val = t.val - constants.genesisStateTimestamp.val :=
    Fin.sub_val_of_le hgenesis
  have hbound := h.epochFits
  have hdiv := div_toMs (show (t - constants.genesisStateTimestamp).val < 2 ^ 63 by omega)
    (show constants.epochDuration.val < 2 ^ 63 by omega) hpos
  rw [hdiff] at hdiv
  refine ⟨_, by rw [Epoch.ofTimeExn, if_neg (not_lt.2 hgenesis)]; dsimp only; rw [hdiv, Exn.andThen_ok], ?_⟩
  generalize (t.val - constants.genesisStateTimestamp.val) / constants.epochDuration.val = q at hepoch ⊢
  have := Int64.toUInt32_of_fits (n := (q : Int)) (by omega) (by omega)
  omega

theorem startTime_val {epoch : Length}
    (hfits : constants.genesisStateTimestamp.val + epoch.val * constants.epochDuration.val < 2 ^ 63) :
    (Epoch.startTime constants epoch).val =
      constants.genesisStateTimestamp.val + epoch.val * constants.epochDuration.val := by
  have hgenesis : toMs constants.genesisStateTimestamp = constants.genesisStateTimestamp.val :=
    toMs_of_lt (by omega)
  have hval := Int64.toUInt64_of_fits
    (n := (constants.genesisStateTimestamp.val + epoch.val * constants.epochDuration.val : Nat)) (by omega) (by omega)
  rw [Epoch.startTime, hgenesis, toMs_epochDuration h, int64_add_right, ofMs, Int64.toUInt64_int64]
  exact_mod_cast hval

theorem slotStartTime_val {epoch slot : Length}
    (hfits : constants.genesisStateTimestamp.val + epoch.val * constants.epochDuration.val +
      slot.val * constants.slotDurationMs.val < 2 ^ 63) :
    (Epoch.slotStartTime constants epoch slot).val = constants.genesisStateTimestamp.val +
      epoch.val * constants.epochDuration.val + slot.val * constants.slotDurationMs.val := by
  have hslot := Int64.toUInt64_of_fits (n := (slot.val * constants.slotDurationMs.val : Nat)) (by omega) (by omega)
  have hslot' : (ofMs (int64 (slot.val * toMs constants.slotDurationMs))).val =
      slot.val * constants.slotDurationMs.val := by
    rw [toMs_slotDuration h, ofMs, Int64.toUInt64_int64]
    exact_mod_cast hslot
  rw [Epoch.slotStartTime, Fin.val_add, hslot', startTime_val h (by omega), Nat.mod_eq_of_lt (by omega)]

/-- The epoch and the slot of a time are those of the slot durations since
genesis. -/
theorem epochAndSlotOfTimeExn_eq {t : Time} (hgenesis : constants.genesisStateTimestamp ≤ t) (ht : t.val < 2 ^ 63)
    (hpos : 0 < constants.epochDuration.val)
    (hepoch : (t.val - constants.genesisStateTimestamp.val) / constants.epochDuration.val < 2 ^ 32) :
    ∃ now, epochAndSlotOfTimeExn constants t = .ok now ∧ globalSlot constants now =
      ((t.val - constants.genesisStateTimestamp.val) / constants.slotDurationMs.val : Nat) := by
  obtain ⟨epoch, hok, hval⟩ := ofTimeExn_eq h hgenesis ht hpos hepoch
  have hdivmod := Nat.div_add_mod (t.val - constants.genesisStateTimestamp.val) constants.epochDuration.val
  have hmod := Nat.mod_lt (t.val - constants.genesisStateTimestamp.val) hpos
  have hsum := div_mul_add_mod_div (t.val - constants.genesisStateTimestamp.val) constants.slotDurationMs.val
    constants.epochSize.val
  rw [← h.epoch, ← hval] at hsum
  rw [← hval, Nat.mul_comm] at hdivmod
  generalize (t.val - constants.genesisStateTimestamp.val) % constants.epochDuration.val = rest at hdivmod hmod hsum
  have hle := Fin.le_def.1 hgenesis
  have hstart := @startTime_val constants h epoch (by omega)
  have hsince : (t - Epoch.startTime constants epoch).val = rest := by
    rw [Fin.sub_val_of_le (Fin.le_def.2 (by omega)), hstart]
    omega
  have hdiv := div_toMs (show (t - Epoch.startTime constants epoch).val < 2 ^ 63 by omega)
    ((slotDuration_lt h).trans (by decide)) h.slot
  rw [hsince] at hdiv
  have hquotient : rest / constants.slotDurationMs.val < 2 ^ 32 :=
    (Nat.div_le_self _ _).trans_lt (hmod.trans h.epochFits)
  refine ⟨_, by rw [epochAndSlotOfTimeExn, hok, Exn.andThen_ok]; dsimp only; rw [hdiv, Exn.andThen_ok], ?_⟩
  rw [globalSlot, ← hsum]
  generalize rest / constants.slotDurationMs.val = q at hquotient
  have hval' := Int64.toUInt32_of_fits (n := (q : Int)) (by omega) (by omega)
  dsimp only
  rw [hval', Nat.cast_add, Nat.cast_mul]

end Times

/-! ## The window -/

/-- **Blocks are accepted exactly within their time window**, if the receipt
time and the end of the window are non-negative as signed integers of 64 bits;
and the difference of two pairs is that of their global slot numbers if that
is a signed integer of 64 bits. -/
theorem receivedWithinWindow_iff {constraintConstants : ConstraintConstants} {protocol : Protocol}
    {constants : ProtocolConstants} (hcreate : ProtocolConstants.create constraintConstants protocol = .ok constants)
    (hfit : DurationsFit constants) :
    (∀ (epoch slot : Length) (t : Int), slot < constants.epochSize →
      constants.genesisStateTimestamp.val ≤ t → t < 2 ^ 63 →
      (t - constants.genesisStateTimestamp.val) / constants.epochDuration.val < 2 ^ 32 →
      constants.genesisStateTimestamp.val + epoch.val * constants.epochDuration.val +
        (slot.val + (constants.delta.val + 1)) * constants.slotDurationMs.val ≤ 2 ^ 63 →
      ∃ r, receivedWithinWindow constants (epoch, slot) t = .ok r ∧
        (r = .ok () ↔ (Epoch.slotStartTime constants epoch slot).val ≤ t ∧
          t < (Epoch.slotStartTime constants epoch slot).val +
            (constants.delta.val + 1) * constants.slotDurationMs.val) ∧
        (r = .error .tooEarly ↔ t < (Epoch.slotStartTime constants epoch slot).val)) ∧
    ∀ t t' : Length × Length, Fits64 (globalSlot constants t - globalSlot constants t') →
      Epoch.diffInSlots constants t t' = globalSlot constants t - globalSlot constants t' := by
  have h := ProtocolConstants.create_durations hcreate hfit
  refine ⟨fun epoch slot t hslot hgenesis ht hepoch hend => ?_, fun t t' => (diffInSlots_eq constants t t').2⟩
  have hsd := h.slot
  have hpos : 0 < constants.epochDuration.val := by
    rw [h.epoch]
    exact Nat.mul_pos hsd (lt_of_le_of_lt (Nat.zero_le _) hslot)
  obtain ⟨n, rfl⟩ := Int.eq_ofNat_of_zero_le (show 0 ≤ t by omega)
  have htime : (ofMs n).val = n := by
    have := Int64.toUInt64_of_fits (n := (n : Int)) (by omega) (by omega)
    exact_mod_cast this
  have hle : constants.genesisStateTimestamp.val ≤ n := by omega
  have hepoch : (n - constants.genesisStateTimestamp.val) / constants.epochDuration.val < 2 ^ 32 := by
    rw [← Nat.cast_sub hle, ← Int.natCast_ediv] at hepoch
    omega
  obtain ⟨now, hnow, hglobal⟩ := @epochAndSlotOfTimeExn_eq constants h (ofMs n) (Fin.le_def.2 (by rw [htime]; exact hle))
    (by rw [htime]; omega) hpos (by rw [htime]; exact hepoch)
  rw [htime] at hglobal
  have hmul : (slot.val + (constants.delta.val + 1)) * constants.slotDurationMs.val =
      slot.val * constants.slotDurationMs.val + (constants.delta.val + 1) * constants.slotDurationMs.val := by ring
  have hone : 1 ≤ (constants.delta.val + 1) * constants.slotDurationMs.val :=
    Nat.mul_pos (Nat.succ_pos _) hsd
  have hstart := @slotStartTime_val constants h epoch slot (by omega)
  have hslots : (epoch.val * constants.epochSize.val + slot.val) * constants.slotDurationMs.val =
      epoch.val * constants.epochDuration.val + slot.val * constants.slotDurationMs.val := by
    rw [h.epoch]
    ring
  have hslots' : (epoch.val * constants.epochSize.val + slot.val + (constants.delta.val + 1)) *
      constants.slotDurationMs.val = epoch.val * constants.epochDuration.val +
        slot.val * constants.slotDurationMs.val + (constants.delta.val + 1) * constants.slotDurationMs.val := by
    rw [Nat.add_mul, hslots]
  -- Before the start and after the end of the window, in slots and in times.
  have hearly := Nat.div_lt_iff_lt_mul (x := n - constants.genesisStateTimestamp.val)
    (y := epoch.val * constants.epochSize.val + slot.val) hsd
  have hlate := Nat.le_div_iff_mul_le (y := n - constants.genesisStateTimestamp.val)
    (x := epoch.val * constants.epochSize.val + slot.val + (constants.delta.val + 1)) hsd
  rw [hslots] at hearly
  rw [hslots'] at hlate
  have hself := Nat.div_le_self (n - constants.genesisStateTimestamp.val) constants.slotDurationMs.val
  have hself' := Nat.le_mul_of_pos_right (epoch.val * constants.epochSize.val + slot.val) hsd
  rw [hslots] at hself'
  have htarget : globalSlot constants (epoch, slot) =
      (epoch.val * constants.epochSize.val + slot.val : Nat) := by
    rw [globalSlot, Nat.cast_add, Nat.cast_mul]
  have hdelta : (constants.delta + 1).val = constants.delta.val + 1 := by
    have := Nat.le_mul_of_pos_left (constants.delta.val + 1) hsd
    exact Length.succ_val (this.trans_lt h.deltaFits)
  generalize (n - constants.genesisStateTimestamp.val) / constants.slotDurationMs.val = elapsed at *
  generalize epoch.val * constants.epochSize.val + slot.val = target at *
  have hdiff : Epoch.diffInSlots constants now (epoch, slot) = elapsed - target := by
    rw [(diffInSlots_eq constants now (epoch, slot)).2, hglobal, htarget]
    rw [hglobal, htarget, Fits64]
    omega
  have hwindow : ((constants.delta.val : Int) + 1) * constants.slotDurationMs.val =
      ((constants.delta.val + 1) * constants.slotDurationMs.val : Nat) := by
    rw [Nat.cast_mul, Nat.cast_add, Nat.cast_one]
  refine ⟨_, by rw [receivedWithinWindow, hnow, Exn.andThen_ok], ?_⟩
  rw [hdiff, hdelta, hwindow, hstart]
  generalize (constants.delta.val + 1) * constants.slotDurationMs.val = window at *
  split
  next hlt =>
    refine ⟨⟨fun hr => (by cases hr), fun hin => ?_⟩, ⟨fun _ => ?_, fun _ => rfl⟩⟩ <;> omega
  next hge =>
    split
    next =>
      refine ⟨⟨fun hr => (by cases hr), fun hin => ?_⟩, ⟨fun hr => (by cases hr), fun hbefore => ?_⟩⟩ <;> omega
    next =>
      refine ⟨⟨fun _ => ?_, fun _ => rfl⟩, ⟨fun hr => (by cases hr), fun hbefore => ?_⟩⟩ <;> omega

namespace Sample

def constraintConstants (slotMs : Int) : ConstraintConstants where
  subWindowsPerWindow := 2
  blockWindowDurationMs := slotMs
  fork := none

def protocol (slotsPerEpoch : Int) : Protocol where
  k := 1
  slotsPerEpoch
  slotsPerSubWindow := 1
  delta := 0
  genesisStateTimestamp := 0

/-- Epochs of three slots of two seconds. -/
def seconds : ProtocolConstants where
  slotsPerSubWindow := 1
  subWindowsPerWindow := 2
  slotsPerEpoch := 3
  gracePeriodEnd := 3
  k := 1
  slotsPerWindow := 2
  checkpointWindowSizeInSlots := 1314000
  delta := 0
  epochSize := 3
  checkpointWindowSlotsPerYear := 15768000
  blockWindowDurationMs := 2000
  slotDurationMs := 2000
  epochDuration := 6000
  deltaDuration := 2000
  genesisStateTimestamp := 0

/-- Epochs of `2 ^ 32 - 1` slots of a millisecond. -/
def milliseconds : ProtocolConstants where
  slotsPerSubWindow := 1
  subWindowsPerWindow := 2
  slotsPerEpoch := 4294967295
  gracePeriodEnd := 259200000
  k := 1
  slotsPerWindow := 2
  checkpointWindowSizeInSlots := 2628000000
  delta := 0
  epochSize := 4294967295
  checkpointWindowSlotsPerYear := 1471228928
  blockWindowDurationMs := 1
  slotDurationMs := 1
  epochDuration := 4294967295
  deltaDuration := 1
  genesisStateTimestamp := 0

end Sample

/-- The second slot of two seconds is from the second two to four. -/
theorem receivedWithinWindow_iff_sample :
    ProtocolConstants.create (Sample.constraintConstants 2000) (Sample.protocol 3) = .ok Sample.seconds ∧
      ∃ r, receivedWithinWindow Sample.seconds (0, 1) 3000 = .ok r ∧
        (r = .ok () ↔ (Epoch.slotStartTime Sample.seconds 0 1).val ≤ (3000 : Int) ∧
          (3000 : Int) < (Epoch.slotStartTime Sample.seconds 0 1).val +
            (Sample.seconds.delta.val + 1) * Sample.seconds.slotDurationMs.val) ∧
        (r = .error .tooEarly ↔ (3000 : Int) < (Epoch.slotStartTime Sample.seconds 0 1).val) := by
  have hcreate : ProtocolConstants.create (Sample.constraintConstants 2000) (Sample.protocol 3) =
      .ok Sample.seconds := by decide +kernel
  have hfit : DurationsFit Sample.seconds := ⟨by decide +kernel, by decide +kernel⟩
  exact ⟨hcreate, (receivedWithinWindow_iff hcreate hfit).1 0 1 3000 (by decide +kernel) (by decide +kernel)
    (by decide +kernel) (by decide +kernel) (by decide +kernel)⟩

/-- No duration overflows here, but the number of slots before the last epoch
does not fit: the difference is negative, and a block of that epoch is too late
at genesis. -/
theorem difference_overflows :
    ProtocolConstants.create (Sample.constraintConstants 1) (Sample.protocol (2 ^ 32 - 1)) =
        .ok Sample.milliseconds ∧ DurationsFit Sample.milliseconds ∧
      Epoch.diffInSlots Sample.milliseconds (4294967295, 0) (0, 0) ≠
        globalSlot Sample.milliseconds (4294967295, 0) - globalSlot Sample.milliseconds (0, 0) ∧
      (0 : Int) < (Epoch.slotStartTime Sample.milliseconds 4294967295 0).val ∧
      receivedWithinWindow Sample.milliseconds (4294967295, 0) 0 = .ok (.error (.tooLate (2 ^ 33 - 1))) := by
  refine ⟨by decide +kernel, ⟨by decide +kernel, by decide +kernel⟩, by decide +kernel, by decide +kernel, ?_⟩
  decide +kernel

end Mina.Consensus
