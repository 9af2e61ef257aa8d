/-
The minimum balance of a timed account, and the check that a deduction
leaves it (`validate_timing_with_min_balance` of
`mina_base/transaction_logic.ml`). The schedule is a formula over the
integers; `minBalanceAtSlot_eq` says that the machine arithmetic computes
it, whatever the slots and amounts.
-/
import Mina.Account.Account

namespace Mina

universe u

/-! ## The check -/

/-- The two errors of the check, which carry the tags `nsf` and `minbal`. -/
inductive TimingError where
  | nsf (kind : String) (txnAmount : Amount) (txnGlobalSlot : GlobalSlot) (balance : Balance)
  | minBalance (txnAmount : Amount) (txnGlobalSlot : GlobalSlot) (minBalance : Balance)
deriving DecidableEq

variable {F VK : Type u}

/-- The timing of the account after the deduction, and the minimum balance it
has to keep. -/
def validateTimingWithMinBalance (account : Account F VK) (txnAmount : Amount) (txnGlobalSlot : GlobalSlot) :
    Except TimingError (Timing × Balance) :=
  match account.timing with
  | .untimed =>
    match Currency.sub account.balance txnAmount with
    | none => .error (.nsf "untimed" txnAmount txnGlobalSlot account.balance)
    | some _ => .ok (.untimed, 0)
  | .timed t =>
    match Currency.sub account.balance txnAmount with
    | none => .error (.nsf "timed" txnAmount txnGlobalSlot account.balance)
    | some proposedNewBalance =>
      let currMinBalance := Account.minBalanceAtSlot txnGlobalSlot t
      if proposedNewBalance < currMinBalance then .error (.minBalance txnAmount txnGlobalSlot currMinBalance)
      -- Once the minimum balance is zero, the account becomes untimed.
      else if currMinBalance > 0 then .ok (account.timing, currMinBalance)
      else .ok (.untimed, 0)

def validateTiming (account : Account F VK) (txnAmount : Amount) (txnGlobalSlot : GlobalSlot) :
    Except TimingError Timing :=
  match validateTimingWithMinBalance account txnAmount txnGlobalSlot with
  | .ok (timing, _) => .ok timing
  | .error e => .error e

/-! ## The schedule -/

/-- The minimum balance that the schedule asks for, over the integers. -/
def Timed.schedule (t : Timed) (slot : GlobalSlot) : ℤ :=
  if slot < t.cliffTime then t.initialMinimumBalance.val
  else if t.vestingPeriod = 0 then 0
  else max 0 (t.initialMinimumBalance.val - t.cliffAmount.val -
    t.vestingIncrement.val * ((slot.val - t.cliffTime.val : ℤ) / t.vestingPeriod.val))

namespace Account

/-- The test by division finds the products of 64 bits that overflow. -/
theorem mul_overflow_iff {m n : Amount} (hm : m ≠ 0) : Fin.last _ / m < n ↔ 2 ^ 64 ≤ m.val * n.val := by
  have hpos : 0 < m.val := Nat.pos_of_ne_zero fun h => hm (Fin.ext h)
  rw [Fin.lt_def, Fin.div_val, Fin.val_last, Nat.div_lt_iff_lt_mul hpos, Nat.mul_comm]
  omega

/-- The decrement of so many periods, up to the largest amount. -/
theorem vestingDecrement_val (m n : Amount) : (vestingDecrement m n).val = min (2 ^ 64 - 1) (m.val * n.val) := by
  rw [vestingDecrement]
  by_cases hm : m = 0
  · subst hm
    rw [if_neg fun h => h.1 rfl, Fin.zero_mul, Fin.val_zero, Nat.zero_mul, Nat.min_eq_right (Nat.zero_le _)]
  · by_cases h : 2 ^ 64 ≤ m.val * n.val
    · rw [if_pos ⟨hm, (mul_overflow_iff hm).2 h⟩, Fin.val_last]
      omega
    · rw [if_neg fun hover => h ((mul_overflow_iff hm).1 hover.2), Fin.val_mul, Nat.mod_eq_of_lt (by omega)]
      omega

theorem numPeriods_val {slot : GlobalSlot} {t : Timed} (h : ¬ slot < t.cliffTime) :
    (numPeriods slot t).val = (slot.val - t.cliffTime.val) / t.vestingPeriod.val := by
  have hslot := slot.isLt
  have hle := Nat.div_le_self (slot.val - t.cliffTime.val) t.vestingPeriod.val
  change ((slot - t.cliffTime) / t.vestingPeriod).val % 2 ^ 64 = _
  rw [Fin.div_val, Fin.sub_val_of_le (Fin.not_lt.1 h), Nat.mod_eq_of_lt (by omega)]

/-- Before the cliff, without a period, or the balance past the cliff less
what has vested since, if both subtractions succeed. -/
theorem minBalanceAtSlot_eq (slot : GlobalSlot) (t : Timed) :
    (minBalanceAtSlot slot t).val = t.schedule slot := by
  rw [minBalanceAtSlot, Timed.schedule]
  split
  next => rfl
  next hcliff =>
    split
    next => rfl
    next hperiod =>
      have hcliff' := Fin.not_lt.1 hcliff
      rw [Fin.le_def] at hcliff'
      have hperiods : ((slot.val : ℤ) - t.cliffTime.val) / t.vestingPeriod.val = (numPeriods slot t).val := by
        rw [numPeriods_val hcliff, Int.natCast_div, Int.natCast_sub hcliff']
      rw [hperiods, mul_comm]
      have hdecrement := vestingDecrement_val (numPeriods slot t) t.vestingIncrement
      generalize vestingDecrement (numPeriods slot t) t.vestingIncrement = decrement at hdecrement ⊢
      have hcast := Int.natCast_mul (numPeriods slot t).val t.vestingIncrement.val
      have hlt := t.initialMinimumBalance.isLt
      split
      next hsub =>
        have := Currency.sub_eq_none.1 hsub
        rw [Fin.val_zero]
        omega
      next past hsub =>
        have := Currency.sub_eq_some.1 hsub
        split
        next hsub =>
          have := Currency.sub_eq_none.1 hsub
          rw [Fin.val_zero]
          omega
        next amt hsub =>
          have := Currency.sub_eq_some.1 hsub
          omega

end Account

theorem Timed.schedule_antitone (t : Timed) {s s' : GlobalSlot} (h : s ≤ s') : t.schedule s' ≤ t.schedule s := by
  rw [Fin.le_def] at h
  simp only [schedule, Fin.lt_def]
  by_cases hs' : s'.val < t.cliffTime.val
  · rw [if_pos hs', if_pos (by omega)]
  · rw [if_neg hs']
    by_cases hperiod : t.vestingPeriod = 0
    · rw [if_pos hperiod, if_pos hperiod]
      split <;> omega
    · rw [if_neg hperiod, if_neg hperiod]
      have hpos : 0 < t.vestingPeriod.val := Nat.pos_of_ne_zero fun h0 => hperiod (Fin.ext h0)
      have hvested : 0 ≤ (t.vestingIncrement.val : ℤ) * (((s'.val : ℤ) - t.cliffTime.val) / t.vestingPeriod.val) :=
        mul_nonneg (by omega) (Int.ediv_nonneg (by omega) (by omega))
      split
      · omega
      · have hle : ((s.val : ℤ) - t.cliffTime.val) / t.vestingPeriod.val ≤
            ((s'.val : ℤ) - t.cliffTime.val) / t.vestingPeriod.val := Int.ediv_le_ediv (by omega) (by omega)
        have := mul_le_mul_of_nonneg_left hle (Int.natCast_nonneg t.vestingIncrement.val)
        omega

namespace Account

/-- The difference of two minimum balances does not wrap around when the slots
are in order. -/
theorem incrementalBalanceBetweenSlots_eq (t : Timed) {start stop : GlobalSlot} (h : start ≤ stop) :
    minBalanceAtSlot stop t ≤ minBalanceAtSlot start t ∧
      ((incrementalBalanceBetweenSlots start stop t).val : ℤ) = t.schedule start - t.schedule stop := by
  have hle := t.schedule_antitone h
  rw [← minBalanceAtSlot_eq, ← minBalanceAtSlot_eq] at hle ⊢
  have hle' : minBalanceAtSlot stop t ≤ minBalanceAtSlot start t := by rw [Fin.le_def]; omega
  refine ⟨hle', ?_⟩
  rw [incrementalBalanceBetweenSlots, Fin.sub_val_of_le hle']
  omega

end Account

/-- The minimum balance of an account at a slot. -/
def Account.minBalance (account : Account F VK) (slot : GlobalSlot) : Balance :=
  match account.timing with
  | .untimed => 0
  | .timed t => Account.minBalanceAtSlot slot t

/-- What `Ok` says: the deduction leaves the minimum balance, and the timing
that is kept asks for the same minimum. -/
theorem validateTimingWithMinBalance_ok {account : Account F VK} {txnAmount : Amount} {slot : GlobalSlot}
    {timing : Timing} {minBalance : Balance}
    (h : validateTimingWithMinBalance account txnAmount slot = .ok (timing, minBalance)) :
    minBalance = account.minBalance slot ∧ txnAmount.val + minBalance.val ≤ account.balance.val ∧
      timing = if 0 < minBalance then account.timing else .untimed := by
  rw [validateTimingWithMinBalance] at h
  rw [Account.minBalance]
  cases htiming : account.timing with
  | untimed =>
    rw [htiming] at h
    dsimp only at h ⊢
    split at h
    next => cases h
    next hsub =>
      cases h
      have := Currency.sub_eq_some.1 hsub
      exact ⟨rfl, by rw [Fin.val_zero]; omega, by rw [if_neg (by decide)]⟩
  | timed t =>
    rw [htiming] at h
    dsimp only at h ⊢
    split at h
    next => cases h
    next hsub =>
      have := Currency.sub_eq_some.1 hsub
      split at h
      next => cases h
      next hlt =>
        rw [Fin.lt_def] at hlt
        split at h
        next hpos =>
          cases h
          exact ⟨rfl, by omega, (if_pos hpos).symm⟩
        next hzero =>
          cases h
          have hmin : (0 : Balance) = Account.minBalanceAtSlot slot t :=
            Fin.ext (Nat.eq_zero_of_not_pos hzero).symm
          exact ⟨hmin, by rw [Fin.val_zero]; omega, by rw [if_neg (by decide)]⟩

/-- **The minimum balance follows its vesting schedule.** It is the schedule's
integer at every slot; it never increases with the slot, so the increment
between two slots in order does not wrap around; and a deduction that is
accepted leaves the account its minimum balance. -/
theorem minBalance_follows_schedule (t : Timed) :
    (∀ slot, ((Account.minBalanceAtSlot slot t).val : ℤ) = t.schedule slot) ∧
      (∀ start stop : GlobalSlot, start ≤ stop →
        Account.minBalanceAtSlot stop t ≤ Account.minBalanceAtSlot start t ∧
          ((Account.incrementalBalanceBetweenSlots start stop t).val : ℤ) = t.schedule start - t.schedule stop) ∧
      ∀ (account : Account F VK) (txnAmount : Amount) (slot : GlobalSlot) (r : Timing × Balance),
        validateTimingWithMinBalance account txnAmount slot = .ok r →
          r.2 = account.minBalance slot ∧
            ((account.minBalance slot).val : ℤ) ≤ (account.balance.val : ℤ) - txnAmount.val := by
  refine ⟨fun slot => Account.minBalanceAtSlot_eq slot t,
    fun start stop h => Account.incrementalBalanceBetweenSlots_eq t h, ?_⟩
  intro account txnAmount slot r h
  obtain ⟨hmin, hle, -⟩ := validateTimingWithMinBalance_ok h
  rw [hmin] at hle
  exact ⟨hmin, by omega⟩

namespace Sample

/-- 1000 with a cliff of 100 at slot 10, and then 50 every 5 slots. -/
def timed : Timed := ⟨1000, 10, 100, 5, 50⟩

/-- An account with that schedule and the balance 900. -/
def timedAccount : Account Nat Nat where
  publicKey := ⟨1, false⟩
  tokenId := TokenId.default
  tokenPermissions := .notOwned false
  balance := 900
  nonce := 0
  receiptChainHash := 0
  delegate := none
  votingFor := 0
  timing := .timed timed
  permissions := ⟨true, .signature, .signature, .none, .signature, .signature, .signature⟩
  snapp := none

end Sample

theorem minBalance_follows_schedule_sample :
    ((Account.minBalanceAtSlot 22 Sample.timed).val : ℤ) = 800 ∧
      ((Account.incrementalBalanceBetweenSlots 3 22 Sample.timed).val : ℤ) = 200 ∧
      ((Account.minBalance Sample.timedAccount 22).val : ℤ) ≤ 900 - 60 :=
  have h := @minBalance_follows_schedule Nat Nat Sample.timed
  ⟨(h.1 22).trans (by decide), ((h.2.1 3 22 (by decide)).2).trans (by decide),
    (h.2.2 Sample.timedAccount 60 22 (.timed Sample.timed, 800) rfl).2⟩

end Mina
