/-
The circuit's version of combining fee excesses (`combine_checked` of
`mina_base/fee_excess.ml`) agrees with the plain one (`combineChecked_iff`).

Amounts are elements of the field here, and are only checked to be in range at
the end. Each of them is the image of an integer that is a sum of two signed
amounts, which the field tells from zero and the range check from the amounts.
A sum that is out of range is never added to anything: between canonical
excesses, no more than two have the same token.
-/
import Mina.Base.FeeExcessFacts

namespace Mina

/-! ## The field -/

namespace Tick

/-- `Field.size`. -/
def fieldSize : Nat := 28948022309329048855892746252171976963363056481941560715954676764349967630337

/-- `Field.size_in_bits`. -/
def sizeInBits : Nat := 255

abbrev Element := ZMod fieldSize

instance : NeZero fieldSize := ⟨by decide⟩

end Tick

open Tick

/-- `Sgn.to_field`. -/
def Sgn.toField : Sgn → Element
  | .pos => 1
  | .neg => -1

/-- `Fee.Signed.Checked.to_field_var`. -/
def SignedAmount.toFieldVar (x : SignedAmount) : Element := (x.magnitude.val : Element) * x.sgn.toField

namespace FeeExcess

/-! ## The circuit -/

/-- The inner `combine` of `eliminate_fee_excess_checked`: moves the middle
excess to a side, if it may. -/
def combineSide (feeTokenM : TokenId) (fee : TokenId × Element) (feeExcessM : Element) :
    (TokenId × Element) × Element :=
  let feeTokenEqual : Bool := fee.1 = feeTokenM
  let feeExcessZero : Bool := fee.2 = 0
  let mayMove := feeTokenEqual || feeExcessZero
  let feeToken := if feeExcessZero then feeTokenM else fee.1
  let feeExcessToMove := if mayMove then feeExcessM else 0
  ((feeToken, fee.2 + feeExcessToMove), feeExcessM - feeExcessToMove)

def eliminateFeeExcessChecked (l m r : TokenId × Element) : Exn ((TokenId × Element) × (TokenId × Element)) :=
  let left := combineSide m.1 l m.2
  let right := combineSide m.1 r left.2
  if right.2 = 0 then .ok (left.1, right.1) else .error "Fee excess is eliminated"

def rebalanceChecked (l r : TokenId × Element) : (TokenId × Element) × (TokenId × Element) :=
  let feeTokenL := if l.2 = 0 then r.1 else l.1
  let amountToMove := if feeTokenL = r.1 then r.2 else 0
  let feeExcessL := l.2 + amountToMove
  let feeExcessR := r.2 - amountToMove
  let feeTokenL := if feeExcessL = 0 then TokenId.default else feeTokenL
  let feeTokenR := if feeExcessR = 0 then TokenId.default else r.1
  ((feeTokenL, feeExcessL), (feeTokenR, feeExcessR))

/-- The loop over the bits of a `UInt64`. -/
def lowBits (n : Nat) : Amount :=
  (List.range 64).foldl (fun total i => if n.testBit i then total + Fin.ofNat (2 ^ 64) (1 <<< i) else total) 0

/-- The prover's witness for an excess as a currency. -/
def currencyExcess (excess : Element) : SignedAmount :=
  let isNeg := excess.val.testBit (sizeInBits - 1)
  let sgn : Sgn := if isNeg then .neg else .pos
  let excess := if isNeg then -1 * excess else excess
  ⟨lowBits excess.val, sgn⟩

def convertToCurrency (excess : Element) : Exn SignedAmount :=
  if excess = (currencyExcess excess).toFieldVar then .ok (currencyExcess excess)
  else .error "Fee excess does not overflow"

def combineChecked (t1 t2 : FeeExcess) : Exn FeeExcess :=
  (eliminateFeeExcessChecked (t1.feeTokenL, t1.feeExcessL.toFieldVar) (t1.feeTokenR, t1.feeExcessR.toFieldVar)
      (t2.feeTokenL, t2.feeExcessL.toFieldVar)).andThen fun e =>
    (eliminateFeeExcessChecked e.1 e.2 (t2.feeTokenR, t2.feeExcessR.toFieldVar)).andThen fun e =>
      let e := rebalanceChecked e.1 e.2
      (convertToCurrency e.1.2).andThen fun feeExcessL =>
        (convertToCurrency e.2.2).andThen fun feeExcessR =>
          .ok { feeTokenL := e.1.1, feeExcessL, feeTokenR := e.2.1, feeExcessR }

end FeeExcess

/-! ## Integers in the field -/

namespace SignedAmount

theorem toFieldVar_eq (x : SignedAmount) : x.toFieldVar = (x.toInt : Element) := by
  obtain ⟨m, s⟩ := x
  cases s <;> simp [toFieldVar, Sgn.toField, toInt]

theorem abs_toInt_lt (x : SignedAmount) : |x.toInt| < 2 ^ 64 := by
  have := x.magnitude.isLt
  rw [toInt, abs_lt]
  split <;> omega

/-- An overflow of a sum is one of integers. -/
theorem add_eq_none {x y : SignedAmount} (h : SignedAmount.add x y = none) : 2 ^ 64 ≤ |x.toInt + y.toInt| := by
  obtain ⟨m, s⟩ := x
  obtain ⟨n, t⟩ := y
  have hsum : s = t ∧ 2 ^ 64 ≤ m.val + n.val := by
    cases s <;> cases t <;> simp only [SignedAmount.add, Option.map_eq_none_iff, Currency.add_eq_none] at h
    · exact ⟨rfl, h⟩
    · split at h
      · cases h
      · split at h <;> cases h
    · split at h
      · cases h
      · split at h <;> cases h
    · exact ⟨rfl, h⟩
  obtain ⟨rfl, hsum⟩ := hsum
  cases s <;> simp only [toInt, le_abs] <;> omega

end SignedAmount

namespace FeeExcess

theorem intCast_eq_zero {n : ℤ} (h : |n| ≤ 2 ^ 65) : (n : Element) = 0 ↔ n = 0 := by
  rw [ZMod.intCast_zmod_eq_zero_iff_dvd]
  refine ⟨fun hdvd => Int.eq_zero_of_abs_lt_dvd hdvd (h.trans_lt (by decide)), fun hn => ?_⟩
  rw [hn]
  exact dvd_zero _

theorem toFieldVar_eq_zero {x : SignedAmount} : x.toFieldVar = 0 ↔ x.magnitude = 0 := by
  have := x.abs_toInt_lt
  rw [x.toFieldVar_eq, intCast_eq_zero (by omega), SignedAmount.magnitude_eq_zero]

/-- The first bits, as a loop over fewer of them. -/
theorem foldl_bits (n : Nat) : ∀ k ≤ 64,
    ((List.range k).foldl (fun total i => if n.testBit i then total + Fin.ofNat (2 ^ 64) (1 <<< i) else total)
      (0 : Amount)).val = n % 2 ^ k
  | 0, _ => by simp [Nat.mod_one]
  | k + 1, hk => by
    have ih := foldl_bits n k (by omega)
    rw [List.range_succ, List.foldl_append, List.foldl_cons, List.foldl_nil, Nat.mod_pow_succ, ← Nat.toNat_testBit]
    cases n.testBit k with
    | false =>
      rw [if_neg Bool.false_ne_true, ih]
      rfl
    | true =>
      have hpow : 2 ^ k ≤ 2 ^ 63 := Nat.pow_le_pow_right (by omega) (by omega)
      have hlt := Nat.mod_lt n (Nat.two_pow_pos k)
      rw [if_pos rfl, Fin.val_add, ih, Fin.val_ofNat, Nat.one_shiftLeft,
        Nat.mod_eq_of_lt (show 2 ^ k < 2 ^ 64 by omega), Nat.mod_eq_of_lt (by omega), Bool.toNat_true, Nat.mul_one]

theorem lowBits_val (n : Nat) : (lowBits n).val = n % 2 ^ 64 := foldl_bits n 64 (Nat.le_refl _)

theorem val_of_nonneg {n : ℤ} (h : 0 ≤ n) (hn : n ≤ 2 ^ 65) : (n : Element).val = n.toNat := by
  obtain ⟨k, rfl⟩ := Int.eq_ofNat_of_zero_le h
  rw [Int.cast_natCast, ZMod.val_natCast, Nat.mod_eq_of_lt, Int.toNat_natCast]
  exact lt_of_le_of_lt (show k ≤ 2 ^ 65 by omega) (by decide)

theorem val_of_neg {n : ℤ} (h : n < 0) (hn : -2 ^ 65 ≤ n) : (n : Element).val = fieldSize - n.natAbs := by
  have hval := val_of_nonneg (n := -n) (by omega) (by omega)
  have hne : ((-n : ℤ) : Element) ≠ 0 := by
    rw [Ne, intCast_eq_zero (by rw [abs_le]; omega)]
    omega
  rw [← neg_neg (n : Element), ← Int.cast_neg, @ZMod.neg_val, if_neg hne, hval]
  omega

/-- The witness has the sign of the integer and its lower bits. -/
theorem currencyExcess_intCast {n : ℤ} (h : |n| ≤ 2 ^ 65) :
    (currencyExcess n).sgn = (if n < 0 then .neg else .pos) ∧ (currencyExcess n).magnitude.val = n.natAbs % 2 ^ 64 := by
  rw [abs_le] at h
  have hfield : 2 ^ 254 + 2 ^ 65 ≤ fieldSize ∧ fieldSize < 2 ^ 255 := by decide
  by_cases hn : n < 0
  · have hval := val_of_neg hn (by omega)
    have hbit : (n : Element).val.testBit (sizeInBits - 1) = true := by
      rw [hval, sizeInBits, Nat.testBit_eq_decide_div_mod_eq, decide_eq_true_eq]
      omega
    have hnat := val_of_nonneg (n := -n) (by omega) (by omega)
    simp only [currencyExcess, hbit, if_true, if_pos hn, true_and]
    rw [lowBits_val, neg_one_mul, ← Int.cast_neg, hnat]
    congr 1
    omega
  · have hval := val_of_nonneg (n := n) (by omega) (by omega)
    have hbit : (n : Element).val.testBit (sizeInBits - 1) = false := by
      rw [hval, sizeInBits]
      exact Nat.testBit_lt_two_pow (lt_of_le_of_lt (show n.toNat ≤ 2 ^ 65 by omega) (by decide))
    simp only [currencyExcess, hbit, if_neg hn, if_false, Bool.false_eq_true, true_and]
    rw [lowBits_val, hval]
    congr 1
    omega

/-- The range check finds the signed amount of the integer, if there is one. -/
theorem convertToCurrency_intCast {n : ℤ} (h : |n| ≤ 2 ^ 65) {x : SignedAmount} :
    convertToCurrency n = .ok x ↔ x.Canonical ∧ x.toInt = n := by
  obtain ⟨hsgn, hmagnitude⟩ := currencyExcess_intCast h
  have hint : (currencyExcess n).toInt = if n < 0 then -((n.natAbs % 2 ^ 64 : Nat) : ℤ) else (n.natAbs % 2 ^ 64 : Nat) := by
    by_cases hn : n < 0
    · rw [SignedAmount.toInt, hsgn, hmagnitude, if_pos hn, if_pos hn]
    · rw [SignedAmount.toInt, hsgn, hmagnitude, if_neg hn, if_neg hn]
  have heq : (n : Element) = (currencyExcess n).toFieldVar ↔ n = (currencyExcess n).toInt := by
    rw [SignedAmount.toFieldVar_eq, ← sub_eq_zero, ← Int.cast_sub, intCast_eq_zero, sub_eq_zero]
    rw [hint, abs_le]
    rw [abs_le] at h
    split <;> omega
  rw [convertToCurrency]
  constructor
  · intro hconvert
    split at hconvert
    next hexcess =>
      have hn := heq.1 hexcess
      cases hconvert
      refine ⟨fun hzero => ?_, hn.symm⟩
      rw [hsgn, if_neg]
      rw [SignedAmount.magnitude_eq_zero, ← hn] at hzero
      omega
    next => cases hconvert
  · intro hx
    have hlt := x.abs_toInt_lt
    rw [hx.2, abs_lt] at hlt
    have hn : n = (currencyExcess n).toInt := by
      rw [hint]
      split <;> omega
    rw [if_pos (heq.2 hn)]
    refine congrArg Except.ok (SignedAmount.Canonical.eq_of_toInt (fun hzero => ?_) hx.1 (hn.symm.trans hx.2.symm))
    rw [hsgn, if_neg]
    rw [SignedAmount.magnitude_eq_zero, ← hn] at hzero
    omega

/-! ## Eliminations -/

section Eliminate

variable {l m r : TokenId × Element}

theorem eliminateChecked_left (hl : l.1 = m.1 ∨ l.2 = 0) : eliminateFeeExcessChecked l m r =
    .ok ((if l.2 = 0 then m.1 else l.1, l.2 + m.2), (if r.2 = 0 then m.1 else r.1, r.2)) := by
  simp [eliminateFeeExcessChecked, combineSide, hl]

theorem eliminateChecked_right (hl : ¬ (l.1 = m.1 ∨ l.2 = 0)) (hr : r.1 = m.1 ∨ r.2 = 0) :
    eliminateFeeExcessChecked l m r = .ok (l, (if r.2 = 0 then m.1 else r.1, r.2 + m.2)) := by
  have hl' := not_or.1 hl
  simp [eliminateFeeExcessChecked, combineSide, hl'.1, hl'.2, hr]

theorem eliminateChecked_none (hl : ¬ (l.1 = m.1 ∨ l.2 = 0)) (hr : ¬ (r.1 = m.1 ∨ r.2 = 0)) :
    eliminateFeeExcessChecked l m r = if m.2 = 0 then .ok (l, r) else .error "Fee excess is eliminated" := by
  have hl' := not_or.1 hl
  have hr' := not_or.1 hr
  simp [eliminateFeeExcessChecked, combineSide, hl'.1, hl'.2, hr'.1, hr'.2]

end Eliminate

/-- What comes after the second elimination in the circuit. -/
def finish (e : (TokenId × Element) × (TokenId × Element)) : Exn FeeExcess :=
  (convertToCurrency (rebalanceChecked e.1 e.2).1.2).andThen fun feeExcessL =>
    (convertToCurrency (rebalanceChecked e.1 e.2).2.2).andThen fun feeExcessR =>
      .ok { feeTokenL := (rebalanceChecked e.1 e.2).1.1, feeExcessL
            feeTokenR := (rebalanceChecked e.1 e.2).2.1, feeExcessR }

section Finish

variable {l r : TokenId × Element}

/-- Where both excesses are in range they are the result. -/
theorem finish_of_canonical {t u : TokenId} {x y : SignedAmount}
    (h : rebalanceChecked l r = ((t, x.toFieldVar), (u, y.toFieldVar))) (hx : x.Canonical) (hy : y.Canonical) :
    finish (l, r) = .ok ⟨t, x, u, y⟩ := by
  have hconvert : ∀ {x : SignedAmount}, x.Canonical → convertToCurrency x.toFieldVar = .ok x := by
    intro x hx
    have := x.abs_toInt_lt
    rw [x.toFieldVar_eq, convertToCurrency_intCast (by omega)]
    exact ⟨hx, rfl⟩
  rw [finish, h, hconvert hx, Exn.andThen_ok, hconvert hy, Exn.andThen_ok]

/-- Where the left or the right excess is out of range there is none. -/
theorem finish_of_overflow {n : ℤ} (hn : 2 ^ 64 ≤ |n|) (hle : |n| ≤ 2 ^ 65)
    (h : (rebalanceChecked l r).1.2 = n ∨ (rebalanceChecked l r).2.2 = n) {fe : FeeExcess} :
    finish (l, r) ≠ .ok fe := by
  intro hfe
  obtain ⟨x, hx, hfe⟩ := Exn.andThen_eq_ok.1 hfe
  obtain ⟨y, hy, -⟩ := Exn.andThen_eq_ok.1 hfe
  have hlt : ∀ {z : SignedAmount}, convertToCurrency n = .ok z → False := by
    intro z hz
    have := z.abs_toInt_lt
    rw [((convertToCurrency_intCast hle).1 hz).2] at this
    omega
  rcases h with h | h
  · exact hlt (h ▸ hx)
  · exact hlt (h ▸ hy)

end Finish

/-! ## Rebalancing -/

theorem toFieldVar_zero : SignedAmount.zero.toFieldVar = 0 := toFieldVar_eq_zero.2 rfl

theorem toFieldVar_add {x y z : SignedAmount} (h : SignedAmount.add x y = some z) :
    x.toFieldVar + y.toFieldVar = z.toFieldVar := by
  rw [x.toFieldVar_eq, y.toFieldVar_eq, z.toFieldVar_eq, SignedAmount.add_toInt h, Int.cast_add]

theorem abs_add_le (x y : SignedAmount) : |x.toInt + y.toInt| ≤ 2 ^ 65 := by
  have hx := x.abs_toInt_lt
  have hy := y.abs_toInt_lt
  rw [abs_lt] at hx hy
  rw [abs_le]
  omega

section Rebalance

variable {l r : SignedAmount} (hl : l.Canonical) (hr : r.Canonical) (tl tr : TokenId)

theorem rebalance_same (h : l.magnitude = 0 ∨ tl = tr) {z : SignedAmount} (hz : SignedAmount.add l r = some z) :
    rebalance ⟨tl, l, tr, r⟩ =
      .ok ⟨if z.magnitude = 0 then TokenId.default else tr, z, TokenId.default, .zero⟩ := by
  by_cases hzero : l.magnitude = 0
  · simp [rebalance, hzero, hz, SignedAmount.zero]
  · simp [rebalance, h.resolve_left hzero, hz, SignedAmount.zero]

theorem rebalance_distinct (h : ¬ (l.magnitude = 0 ∨ tl = tr)) : rebalance ⟨tl, l, tr, r⟩ =
    .ok ⟨tl, l, if r.magnitude = 0 then TokenId.default else tr, r⟩ := by
  have h := not_or.1 h
  simp [rebalance, h.1, h.2]

include hl in
theorem rebalance_zero : rebalance ⟨tl, l, tr, .zero⟩ =
    .ok ⟨if l.magnitude = 0 then TokenId.default else tl, l, TokenId.default, .zero⟩ := by
  by_cases hsame : l.magnitude = 0 ∨ tl = tr
  · rw [rebalance_same tl tr hsame (SignedAmount.add_zero hl)]
    by_cases hzero : l.magnitude = 0
    · rw [if_pos hzero, if_pos hzero]
    · rw [hsame.resolve_left hzero]
  · rw [rebalance_distinct tl tr hsame, if_neg (not_or.1 hsame).1]
    rfl

theorem rebalanceChecked_zero (x : Element) : rebalanceChecked (tl, x) (tr, 0) =
    ((if x = 0 then TokenId.default else tl, x), (TokenId.default, 0)) := by
  by_cases hzero : x = 0
  · simp [rebalanceChecked, hzero]
  · simp [rebalanceChecked, hzero]

theorem rebalance_overflow (h : l.magnitude = 0 ∨ tl = tr) (hz : SignedAmount.add l r = none) (fe : FeeExcess) :
    rebalance ⟨tl, l, tr, r⟩ ≠ .ok fe := by
  by_cases hzero : l.magnitude = 0
  · simp [rebalance, hzero, hz]
  · simp [rebalance, h.resolve_left hzero, hz]

theorem rebalanceChecked_same {x y : Element} (h : x = 0 ∨ tl = tr) : rebalanceChecked (tl, x) (tr, y) =
    ((if x + y = 0 then TokenId.default else tr, x + y), (TokenId.default, 0)) := by
  by_cases hzero : x = 0
  · simp [rebalanceChecked, hzero]
  · simp [rebalanceChecked, h.resolve_left hzero]

theorem rebalanceChecked_distinct {x y : Element} (h : ¬ (x = 0 ∨ tl = tr)) : rebalanceChecked (tl, x) (tr, y) =
    ((tl, x), (if y = 0 then TokenId.default else tr, y)) := by
  have h := not_or.1 h
  simp [rebalanceChecked, h.1, h.2]

include hl hr in
/-- Both versions rebalance alike, whatever token the circuit has for a zero
on the right. -/
theorem rebalance_iff {tr' : TokenId} (htr : r.magnitude ≠ 0 → tr' = tr) (fe : FeeExcess) :
    rebalance ⟨tl, l, tr, r⟩ = .ok fe ↔ finish ((tl, l.toFieldVar), (tr', r.toFieldVar)) = .ok fe := by
  by_cases hzero : r.magnitude = 0
  · rw [hr.eq_zero hzero, rebalance_zero hl, finish_of_canonical (x := l) (y := .zero) _ hl SignedAmount.zero_canonical]
    rw [toFieldVar_zero, rebalanceChecked_zero]
    simp only [toFieldVar_eq_zero]
  · rw [htr hzero]
    by_cases hsame : l.magnitude = 0 ∨ tl = tr
    · have hsame' : l.toFieldVar = 0 ∨ tl = tr := by rwa [toFieldVar_eq_zero]
      have hchecked := rebalanceChecked_same tl tr (y := r.toFieldVar) hsame'
      cases hz : SignedAmount.add l r with
      | some z =>
        rw [rebalance_same tl tr hsame hz, finish_of_canonical (x := z) (y := .zero) _ (hl.add hr hz)
          SignedAmount.zero_canonical]
        rw [hchecked, toFieldVar_zero, toFieldVar_add hz]
        simp only [toFieldVar_eq_zero]
      | none =>
        refine iff_of_false (rebalance_overflow tl tr hsame hz fe) ?_
        refine finish_of_overflow (SignedAmount.add_eq_none hz) (abs_add_le l r) (.inl ?_)
        rw [hchecked, l.toFieldVar_eq, r.toFieldVar_eq, Int.cast_add]
    · have hsame' : ¬ (l.toFieldVar = 0 ∨ tl = tr) := by rwa [toFieldVar_eq_zero]
      rw [rebalance_distinct tl tr hsame, if_neg hzero, finish_of_canonical (x := l) (y := r) _ hl hr]
      rw [rebalanceChecked_distinct tl tr hsame', if_neg (toFieldVar_eq_zero.not.2 hzero)]

end Rebalance

/-! ## After the first elimination -/

section Rest

variable (l m r : TokenId × SignedAmount)

def rest : Exn FeeExcess :=
  (eliminateFeeExcess l m r).andThen fun e => rebalance ⟨e.1.1, e.1.2, e.2.1, e.2.2⟩

/-- An entry in the circuit. -/
def toField (p : TokenId × SignedAmount) : TokenId × Element := (p.1, p.2.toFieldVar)

def restChecked (l m r : TokenId × Element) : Exn FeeExcess :=
  (eliminateFeeExcessChecked l m r).andThen finish

theorem combine_eq (t1 t2 : FeeExcess) : combine t1 t2 =
    (eliminateFeeExcess (t1.feeTokenL, t1.feeExcessL) (t1.feeTokenR, t1.feeExcessR)
      (t2.feeTokenL, t2.feeExcessL)).andThen fun e => rest e.1 e.2 (t2.feeTokenR, t2.feeExcessR) := rfl

theorem combineChecked_eq (t1 t2 : FeeExcess) : combineChecked t1 t2 =
    (eliminateFeeExcessChecked (toField (t1.feeTokenL, t1.feeExcessL)) (toField (t1.feeTokenR, t1.feeExcessR))
      (toField (t2.feeTokenL, t2.feeExcessL))).andThen fun e =>
        restChecked e.1 e.2 (toField (t2.feeTokenR, t2.feeExcessR)) := rfl

variable {l m r}

theorem absorbs_toField {p q : TokenId × SignedAmount} :
    ((toField p).1 = (toField q).1 ∨ (toField p).2 = 0) ↔ (p.1 = q.1 ∨ p.2.magnitude = 0) := by
  rw [toField, toField, toFieldVar_eq_zero]

/-- Both versions end alike, if the right excess is not of the token of the
middle one. -/
theorem rest_iff (hl : l.2.Canonical) (hm : m.2.Canonical) (hr : r.2.Canonical)
    (hdistinct : r.2.magnitude ≠ 0 → r.1 ≠ m.1) (fe : FeeExcess) :
    rest l m r = .ok fe ↔ restChecked (toField l) (toField m) (toField r) = .ok fe := by
  by_cases hleft : l.1 = m.1 ∨ l.2.magnitude = 0
  · rw [rest, eliminateFeeExcess, if_pos hleft, restChecked, eliminateChecked_left (absorbs_toField.2 hleft),
      Exn.andThen_ok]
    have htoken : (if (toField l).2 = 0 then (toField m).1 else (toField l).1) = m.1 := by
      split
      next => rfl
      next hne => exact hleft.resolve_right (toFieldVar_eq_zero.not.1 hne)
    have hright : r.2.magnitude ≠ 0 → (if (toField r).2 = 0 then (toField m).1 else (toField r).1) = r.1 :=
      fun hne => if_neg (toFieldVar_eq_zero.not.2 hne)
    rw [htoken]
    cases hz : SignedAmount.add l.2 m.2 with
    | some z =>
      rw [addErr_eq_ok.2 hz, Exn.andThen_ok, Exn.andThen_ok]
      have hsum : (toField l).2 + (toField m).2 = z.toFieldVar := toFieldVar_add hz
      rw [hsum]
      exact rebalance_iff (hl.add hm hz) hr m.1 r.1 hright fe
    | none =>
      have herror : addErr l.2 m.2 = .error "Error adding fees: overflow." := by rw [addErr, hz]
      rw [herror]
      refine iff_of_false (fun h => (by cases h)) ?_
      have hbig := SignedAmount.add_eq_none hz
      refine finish_of_overflow hbig (abs_add_le _ _) (.inl ?_)
      have hsum : (toField l).2 + (toField m).2 = ((l.2.toInt + m.2.toInt : ℤ) : Element) := by
        rw [toField, toField, SignedAmount.toFieldVar_eq, SignedAmount.toFieldVar_eq, Int.cast_add]
      rw [hsum]
      have hne : ((l.2.toInt + m.2.toInt : ℤ) : Element) ≠ 0 := by
        rw [Ne, intCast_eq_zero (abs_add_le _ _)]
        intro hzero
        rw [hzero] at hbig
        exact absurd hbig (by decide)
      by_cases hzero : r.2.magnitude = 0
      · rw [show (toField r).2 = 0 from toFieldVar_eq_zero.2 hzero, rebalanceChecked_zero]
      · rw [hright hzero, rebalanceChecked_distinct _ _ (not_or.2 ⟨hne, (hdistinct hzero).symm⟩)]
  · have hleft' := absorbs_toField.not.2 hleft
    rw [rest, eliminateFeeExcess, if_neg hleft, restChecked]
    by_cases hright : r.1 = m.1 ∨ r.2.magnitude = 0
    · have hzero : r.2.magnitude = 0 := by
        by_contra hne
        exact hdistinct hne (hright.resolve_right hne)
      have hsum : SignedAmount.add r.2 m.2 = some m.2 := by
        rw [hr.eq_zero hzero, SignedAmount.zero_add hm]
      rw [if_pos hright, addErr_eq_ok.2 hsum, eliminateChecked_right hleft' (absorbs_toField.2 hright),
        Exn.andThen_ok, Exn.andThen_ok, Exn.andThen_ok, if_pos (show (toField r).2 = 0 from toFieldVar_eq_zero.2 hzero),
        show (toField r).2 + (toField m).2 = m.2.toFieldVar from toFieldVar_add hsum]
      exact rebalance_iff hl hm l.1 m.1 (fun _ => rfl) fe
    · rw [if_neg hright, eliminateChecked_none hleft' (absorbs_toField.not.2 hright)]
      by_cases hzero : m.2.magnitude = 0
      · rw [if_pos hzero, if_pos (show (toField m).2 = 0 from toFieldVar_eq_zero.2 hzero), Exn.andThen_ok,
          Exn.andThen_ok]
        exact rebalance_iff hl hr l.1 r.1 (fun _ => rfl) fe
      · rw [if_neg hzero, if_neg (show (toField m).2 ≠ 0 from toFieldVar_eq_zero.not.2 hzero)]
        exact iff_of_false (fun h => (by cases h)) (fun h => (by cases h))

/-- A middle excess that is out of range stays so, if it is not of the token
of the left one either. -/
theorem restChecked_overflow {t : TokenId} {n : ℤ} (hn : 2 ^ 64 ≤ |n|) (hle : |n| ≤ 2 ^ 65)
    (hl : l.2.magnitude ≠ 0) (htoken : l.1 ≠ t) (hdistinct : r.2.magnitude ≠ 0 → r.1 ≠ t) (fe : FeeExcess) :
    restChecked (toField l) (t, n) (toField r) ≠ .ok fe := by
  have hne : (n : Element) ≠ 0 := by
    rw [Ne, intCast_eq_zero hle]
    intro hzero
    rw [hzero] at hn
    exact absurd hn (by decide)
  have hl' : (toField l).2 ≠ 0 := toFieldVar_eq_zero.not.2 hl
  have hleft : ¬ ((toField l).1 = t ∨ (toField l).2 = 0) := not_or.2 ⟨htoken, hl'⟩
  rw [restChecked]
  by_cases hzero : r.2.magnitude = 0
  · have hr : (toField r).2 = 0 := toFieldVar_eq_zero.2 hzero
    rw [eliminateChecked_right (m := (t, (n : Element))) hleft (.inr hr), Exn.andThen_ok, if_pos hr, hr, zero_add]
    refine finish_of_overflow hn hle (.inr ?_)
    exact congrArg (fun e => e.2.2) (rebalanceChecked_distinct l.1 t (y := n) (not_or.2 ⟨hl', htoken⟩))
  · have hright : ¬ ((toField r).1 = t ∨ (toField r).2 = 0) :=
      not_or.2 ⟨hdistinct hzero, toFieldVar_eq_zero.not.2 hzero⟩
    rw [eliminateChecked_none (m := (t, (n : Element))) hleft hright, if_neg hne]
    exact fun h => (by cases h)

end Rest

/-! ## Combining -/

/-- A zero has the default token. -/
def Tokened (p : TokenId × SignedAmount) : Prop := p.2.magnitude = 0 → p.1 = TokenId.default

theorem Tokened.eq_default {p : TokenId × SignedAmount} (h : Tokened p)
    (habsorbs : p.1 = TokenId.default ∨ p.2.magnitude = 0) : p.1 = TokenId.default := by
  rcases habsorbs with htoken | hzero
  · exact htoken
  · exact h hzero

/-- A zero in the middle is eliminated without a trace. -/
theorem eliminate_zero {l r : TokenId × SignedAmount} (hl : l.2.Canonical) (hr : r.2.Canonical)
    (htl : Tokened l) (htr : Tokened r) : eliminateFeeExcess l (TokenId.default, .zero) r = .ok (l, r) := by
  rw [eliminateFeeExcess]
  split
  next h => rw [addErr_eq_ok.2 (SignedAmount.add_zero hl), Exn.andThen_ok, ← htl.eq_default h]
  next =>
    split
    next h => rw [addErr_eq_ok.2 (SignedAmount.add_zero hr), Exn.andThen_ok, ← htr.eq_default h]
    next => rfl

theorem eliminateChecked_zero {l r : TokenId × SignedAmount} (htl : Tokened l) (htr : Tokened r) :
    eliminateFeeExcessChecked (toField l) (toField (TokenId.default, .zero)) (toField r) =
      .ok (toField l, toField r) := by
  have hside : ∀ {p : TokenId × SignedAmount}, Tokened p →
      (if (toField p).2 = 0 then TokenId.default else (toField p).1) = (toField p).1 := by
    intro p hp
    split
    next hzero => exact (hp (toFieldVar_eq_zero.1 hzero)).symm
    next => rfl
  have hm : (toField (TokenId.default, .zero)).2 = 0 := toFieldVar_zero
  have htm : (toField (TokenId.default, .zero)).1 = TokenId.default := rfl
  by_cases hleft : (toField l).1 = (toField (TokenId.default, .zero)).1 ∨ (toField l).2 = 0
  · rw [eliminateChecked_left hleft, hm, htm, hside htl, hside htr, add_zero]
  · by_cases hright : (toField r).1 = (toField (TokenId.default, .zero)).1 ∨ (toField r).2 = 0
    · rw [eliminateChecked_right hleft hright, hm, htm, hside htr, add_zero]
    · rw [eliminateChecked_none hleft hright, if_pos hm]

/-- **The circuit's version of combining fee excesses agrees with the plain
one**: it combines two canonical excesses exactly if the plain one does, to the
same excess. -/
theorem combineChecked_iff {fe1 fe2 : FeeExcess} (h1 : fe1.Canonical) (h2 : fe2.Canonical) (fe : FeeExcess) :
    combine fe1 fe2 = .ok fe ↔ combineChecked fe1 fe2 = .ok fe := by
  rw [combine_eq, combineChecked_eq]
  by_cases hzero : fe1.feeExcessR.magnitude = 0
  · have htl : Tokened (fe1.feeTokenL, fe1.feeExcessL) := h1.tokenL
    have htr : Tokened (fe2.feeTokenL, fe2.feeExcessL) := h2.tokenL
    rw [h1.tokenR hzero, h1.signR.eq_zero hzero, eliminate_zero (by exact h1.signL) (by exact h2.signL) htl htr,
      eliminateChecked_zero htl htr, Exn.andThen_ok, Exn.andThen_ok]
    exact rest_iff (l := (fe1.feeTokenL, fe1.feeExcessL)) (m := (fe2.feeTokenL, fe2.feeExcessL))
      (r := (fe2.feeTokenR, fe2.feeExcessR)) h1.signL h2.signL h2.signR (fun hne => (h2.distinct hne).symm) fe
  · have hl : fe1.feeExcessL.magnitude ≠ 0 := fun hl => hzero (h1.left hl)
    have hleft : ¬ (fe1.feeTokenL = fe1.feeTokenR ∨ fe1.feeExcessL.magnitude = 0) := not_or.2 ⟨h1.distinct hzero, hl⟩
    have hleft' := (absorbs_toField (p := (fe1.feeTokenL, fe1.feeExcessL)) (q := (fe1.feeTokenR, fe1.feeExcessR))).not.2
      hleft
    by_cases hright : fe2.feeTokenL = fe1.feeTokenR ∨ fe2.feeExcessL.magnitude = 0
    · -- The middle excess moves to the right, whose token it has unless that is zero.
      have hdistinct : fe2.feeExcessR.magnitude ≠ 0 → fe2.feeTokenR ≠ fe1.feeTokenR := by
        intro hne htoken
        have hsame := hright.resolve_right fun hz => hne (h2.left hz)
        exact h2.distinct hne (hsame.trans htoken.symm)
      have hright' := (absorbs_toField (p := (fe2.feeTokenL, fe2.feeExcessL))
        (q := (fe1.feeTokenR, fe1.feeExcessR))).2 hright
      have htoken : (if (toField (fe2.feeTokenL, fe2.feeExcessL)).2 = 0 then
          (toField (fe1.feeTokenR, fe1.feeExcessR)).1 else (toField (fe2.feeTokenL, fe2.feeExcessL)).1) =
            fe1.feeTokenR := by
        split
        next => rfl
        next hne => exact hright.resolve_right (toFieldVar_eq_zero.not.1 hne)
      rw [eliminateFeeExcess, if_neg hleft, if_pos hright, eliminateChecked_right hleft' hright', htoken, Exn.andThen_ok]
      cases hz : SignedAmount.add fe2.feeExcessL fe1.feeExcessR with
      | some z =>
        rw [addErr_eq_ok.2 hz, Exn.andThen_ok, Exn.andThen_ok,
          show (toField (fe2.feeTokenL, fe2.feeExcessL)).2 + (toField (fe1.feeTokenR, fe1.feeExcessR)).2 =
            z.toFieldVar from toFieldVar_add hz]
        exact rest_iff (l := (fe1.feeTokenL, fe1.feeExcessL)) (m := (fe1.feeTokenR, z))
          (r := (fe2.feeTokenR, fe2.feeExcessR)) h1.signL (h2.signL.add h1.signR hz) h2.signR hdistinct fe
      | none =>
        have herror : addErr fe2.feeExcessL fe1.feeExcessR = .error "Error adding fees: overflow." := by
          rw [addErr, hz]
        have hsum : (toField (fe2.feeTokenL, fe2.feeExcessL)).2 + (toField (fe1.feeTokenR, fe1.feeExcessR)).2 =
            ((fe2.feeExcessL.toInt + fe1.feeExcessR.toInt : ℤ) : Element) := by
          rw [toField, toField, SignedAmount.toFieldVar_eq, SignedAmount.toFieldVar_eq, Int.cast_add]
        rw [herror, hsum]
        exact iff_of_false (fun h => (by cases h)) (restChecked_overflow (SignedAmount.add_eq_none hz)
          (abs_add_le _ _) hl (h1.distinct hzero) hdistinct fe)
    · have hright' := (absorbs_toField (p := (fe2.feeTokenL, fe2.feeExcessL))
        (q := (fe1.feeTokenR, fe1.feeExcessR))).not.2 hright
      rw [eliminateFeeExcess, if_neg hleft, if_neg hright, if_neg hzero, eliminateChecked_none hleft' hright',
        if_neg (show (toField (fe1.feeTokenR, fe1.feeExcessR)).2 ≠ 0 from toFieldVar_eq_zero.not.2 hzero)]
      exact iff_of_false (fun h => (by cases h)) (fun h => (by cases h))

/-- A fee transfer is combined with the payment after it. -/
theorem combineChecked_iff_sample : combine Sample.transferThenPayment Sample.transfer =
      .ok ⟨2, ⟨5, .neg⟩, TokenId.default, .zero⟩ ∧
    combineChecked Sample.transferThenPayment Sample.transfer = .ok ⟨2, ⟨5, .neg⟩, TokenId.default, .zero⟩ := by
  have h : combine Sample.transferThenPayment Sample.transfer = .ok ⟨2, ⟨5, .neg⟩, TokenId.default, .zero⟩ := by decide
  exact ⟨h, (combineChecked_iff (by decide) (by decide) _).1 h⟩

end FeeExcess

end Mina
