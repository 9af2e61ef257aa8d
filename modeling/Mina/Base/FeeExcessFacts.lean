/-
What `FeeExcess.combine` computes. A fee excess stands for a run of
transactions, whose excesses come in token by token: `run` reads it as an
element of the free product of one copy of `ℤ` for each token, where excesses
of one token add up when they are adjacent and those of different tokens do
not commute. Each step of `combine` keeps the product of the entries it
moves, so `combine` multiplies runs (`combine_run`); and a canonical excess is
the reduced word of its run, so it is determined by it (`Canonical.run_inj`).
That the totals are conserved and that the bracketing does not matter are
facts about the free product.
-/
import Mina.Base.Transaction

namespace Mina

open Monoid

/-! ## Signed amounts -/

namespace SignedAmount

def toInt (x : SignedAmount) : ℤ :=
  match x.sgn with
  | .pos => x.magnitude.val
  | .neg => -x.magnitude.val

/-- A zero has the sign `Pos`. -/
def Canonical (x : SignedAmount) : Prop := x.magnitude = 0 → x.sgn = .pos

instance (x : SignedAmount) : Decidable x.Canonical := inferInstanceAs (Decidable (_ → _))

theorem magnitude_eq_zero {x : SignedAmount} : x.magnitude = 0 ↔ x.toInt = 0 := by
  rw [Fin.ext_iff, Fin.val_zero, toInt]
  split <;> omega

theorem toInt_zero : zero.toInt = 0 := rfl

theorem same_sign_toInt {m n : Amount} {s : Sgn} {z : SignedAmount}
    (h : ((Currency.add m n).map fun k => (⟨k, s⟩ : SignedAmount)) = some z) :
    z.toInt = toInt ⟨m, s⟩ + toInt ⟨n, s⟩ := by
  obtain ⟨k, hk, rfl⟩ := Option.map_eq_some_iff.1 h
  have := Currency.add_eq_some.1 hk
  cases s <;> simp only [toInt] <;> omega

theorem opposite_sign_toInt {m n : Amount} {s t : Sgn} (hst : s ≠ t) {z : SignedAmount}
    (h : (if m < n then some (⟨n - m, t⟩ : SignedAmount)
      else if n < m then some ⟨m - n, s⟩ else some zero) = some z) :
    z.toInt = toInt ⟨m, s⟩ + toInt ⟨n, t⟩ := by
  split at h
  next hlt =>
    cases h
    have hsub := Fin.sub_val_of_le (le_of_lt hlt)
    rw [Fin.lt_def] at hlt
    cases s <;> cases t <;> simp only [toInt, hsub] <;> first | omega | exact absurd rfl hst
  next hlt =>
    split at h
    next hgt =>
      cases h
      have hsub := Fin.sub_val_of_le (le_of_lt hgt)
      rw [Fin.lt_def] at hgt
      cases s <;> cases t <;> simp only [toInt, hsub] <;> first | omega | exact absurd rfl hst
    next hgt =>
      cases h
      rw [Fin.lt_def] at hlt hgt
      rw [toInt_zero]
      cases s <;> cases t <;> simp only [toInt] <;> first | omega | exact absurd rfl hst

theorem add_toInt {x y z : SignedAmount} (h : add x y = some z) : z.toInt = x.toInt + y.toInt := by
  obtain ⟨m, s⟩ := x
  obtain ⟨n, t⟩ := y
  cases s with
  | pos =>
    cases t with
    | pos => exact same_sign_toInt h
    | neg => exact opposite_sign_toInt (by decide) h
  | neg =>
    cases t with
    | pos => exact opposite_sign_toInt (by decide) h
    | neg => exact same_sign_toInt h

theorem Canonical.eq_of_toInt {x y : SignedAmount} (hx : x.Canonical) (hy : y.Canonical)
    (h : x.toInt = y.toInt) : x = y := by
  have hzero : x.magnitude = 0 ↔ y.magnitude = 0 := by rw [magnitude_eq_zero, magnitude_eq_zero, h]
  obtain ⟨m, s⟩ := x
  obtain ⟨n, t⟩ := y
  simp only [Canonical, toInt, Fin.ext_iff, Fin.val_zero] at hx hy h hzero
  have hs : s = t := by
    cases s with
    | pos =>
      cases t with
      | pos => rfl
      | neg => exact (hy (by simp only at h; omega)).symm
    | neg =>
      cases t with
      | pos => exact hx (by simp only at h; omega)
      | neg => rfl
  subst hs
  cases s <;> simp only at h <;> rw [SignedAmount.mk.injEq, Fin.ext_iff] <;> exact ⟨by omega, rfl⟩

theorem zero_canonical : zero.Canonical := fun _ => rfl

theorem Canonical.eq_zero {x : SignedAmount} (hx : x.Canonical) (h : x.magnitude = 0) : x = zero :=
  hx.eq_of_toInt zero_canonical (magnitude_eq_zero.1 h)

theorem Canonical.add {x y z : SignedAmount} (hx : x.Canonical) (hy : y.Canonical)
    (h : SignedAmount.add x y = some z) : z.Canonical := by
  intro hz
  have hsum := add_toInt h
  rw [magnitude_eq_zero.1 hz] at hsum
  by_cases hsgn : x.sgn = y.sgn
  · -- Two amounts of one sign with the sum zero are zeros.
    have hzero : x.magnitude = 0 := by
      rw [toInt, toInt, hsgn] at hsum
      rw [Fin.ext_iff, Fin.val_zero]
      split at hsum <;> omega
    have hpos := hx hzero
    rw [SignedAmount.add, hpos, ← hsgn, hpos] at h
    obtain ⟨k, -, rfl⟩ := Option.map_eq_some_iff.1 h
    rfl
  · obtain ⟨m, s⟩ := x
    obtain ⟨n, t⟩ := y
    have hmn : m = n := by
      rw [Fin.ext_iff]
      cases s <;> cases t <;> simp only [toInt] at hsum
      · exact absurd rfl hsgn
      · omega
      · omega
      · exact absurd rfl hsgn
    subst hmn
    cases s <;> cases t
    · exact absurd rfl hsgn
    · rw [show z = zero by simpa [SignedAmount.add] using h.symm]; rfl
    · rw [show z = zero by simpa [SignedAmount.add] using h.symm]; rfl
    · exact absurd rfl hsgn

theorem exists_add {x y : SignedAmount} (h : x.magnitude = 0 ∨ y.magnitude = 0) :
    ∃ z, SignedAmount.add x y = some z := by
  have hsum : ∃ k, Currency.add x.magnitude y.magnitude = some k := by
    rw [← Option.isSome_iff_exists, ← Option.ne_none_iff_isSome, Ne, Currency.add_eq_none]
    have := x.magnitude.isLt
    have := y.magnitude.isLt
    simp only [Fin.ext_iff, Fin.val_zero] at h
    omega
  obtain ⟨k, hk⟩ := hsum
  rw [SignedAmount.add, hk]
  split
  · exact ⟨_, rfl⟩
  · exact ⟨_, rfl⟩
  all_goals
    split
    · exact ⟨_, rfl⟩
    · split <;> exact ⟨_, rfl⟩

theorem zero_add {x : SignedAmount} (hx : x.Canonical) : SignedAmount.add zero x = some x := by
  obtain ⟨z, hz⟩ := exists_add (x := zero) (y := x) (.inl rfl)
  rw [hz, Canonical.eq_of_toInt (zero_canonical.add hx hz) hx (by rw [add_toInt hz, toInt_zero, Int.zero_add])]

theorem add_zero {x : SignedAmount} (hx : x.Canonical) : SignedAmount.add x zero = some x := by
  obtain ⟨z, hz⟩ := exists_add (x := x) (y := zero) (.inr rfl)
  rw [hz, Canonical.eq_of_toInt (hx.add zero_canonical hz) hx (by rw [add_toInt hz, toInt_zero, Int.add_zero])]

end SignedAmount

/-! ## Runs -/

namespace FeeExcess

/-- The excesses of a run of transactions: one copy of `ℤ` for each token,
multiplied freely. -/
abbrev Run := CoprodI fun _ : TokenId => Multiplicative ℤ

def entry (p : TokenId × SignedAmount) : Run := CoprodI.of (i := p.1) (Multiplicative.ofAdd p.2.toInt)

def run (t : FeeExcess) : Run := entry (t.feeTokenL, t.feeExcessL) * entry (t.feeTokenR, t.feeExcessR)

theorem entry_zero {t : TokenId} {x : SignedAmount} (h : x.magnitude = 0) : entry (t, x) = 1 := by
  rw [entry, SignedAmount.magnitude_eq_zero.1 h, ofAdd_zero, map_one]

theorem entry_add {t : TokenId} {x y z : SignedAmount} (h : SignedAmount.add x y = some z) :
    entry (t, z) = entry (t, x) * entry (t, y) := by
  rw [entry, SignedAmount.add_toInt h, ofAdd_add, map_mul]
  rfl

theorem addErr_eq_ok {x y z : SignedAmount} : addErr x y = .ok z ↔ SignedAmount.add x y = some z := by
  rw [addErr]
  split <;> simp_all

/-- What an elimination can do: the middle excess is added to the left or to
the right one, which has its token or is zero, or it is zero itself. -/
theorem eliminateFeeExcess_cases {l m r : TokenId × SignedAmount}
    {e : (TokenId × SignedAmount) × (TokenId × SignedAmount)} (h : eliminateFeeExcess l m r = .ok e) :
    (∃ z, (l.1 = m.1 ∨ l.2.magnitude = 0) ∧ SignedAmount.add l.2 m.2 = some z ∧ e = ((m.1, z), r)) ∨
      (∃ z, (r.1 = m.1 ∨ r.2.magnitude = 0) ∧ SignedAmount.add r.2 m.2 = some z ∧ e = (l, (m.1, z))) ∨
        m.2.magnitude = 0 ∧ e = (l, r) := by
  rw [eliminateFeeExcess] at h
  split at h
  next hl =>
    obtain ⟨z, hz, h⟩ := Exn.andThen_eq_ok.1 h
    exact .inl ⟨z, hl, addErr_eq_ok.1 hz, (Except.ok.inj h).symm⟩
  next =>
    split at h
    next hr =>
      obtain ⟨z, hz, h⟩ := Exn.andThen_eq_ok.1 h
      exact .inr (.inl ⟨z, hr, addErr_eq_ok.1 hz, (Except.ok.inj h).symm⟩)
    next =>
      split at h
      next hm => exact .inr (.inr ⟨hm, (Except.ok.inj h).symm⟩)
      next => cases h

/-- Excesses of one token commute. -/
theorem entry_comm {p m : TokenId × SignedAmount} (h : p.1 = m.1 ∨ p.2.magnitude = 0) :
    entry p * entry m = entry m * entry p := by
  rcases h with h | h
  · obtain ⟨t, x⟩ := p
    obtain ⟨u, y⟩ := m
    subst h
    exact ((CoprodI.of.map_mul _ _).symm.trans (congrArg _ (mul_comm _ _))).trans (CoprodI.of.map_mul _ _)
  · rw [show entry p = 1 from entry_zero h, one_mul, mul_one]

theorem entry_absorb {p m : TokenId × SignedAmount} {z : SignedAmount} (h : p.1 = m.1 ∨ p.2.magnitude = 0)
    (hz : SignedAmount.add p.2 m.2 = some z) : entry (m.1, z) = entry p * entry m := by
  rw [entry_add hz]
  rcases h with h | h
  · rw [← h, show m = (p.1, m.2) from Prod.ext h.symm rfl]
  · rw [entry_zero h, show entry p = 1 from entry_zero h]

theorem eliminateFeeExcess_entry {l m r : TokenId × SignedAmount}
    {e : (TokenId × SignedAmount) × (TokenId × SignedAmount)} (h : eliminateFeeExcess l m r = .ok e) :
    entry e.1 * entry e.2 = entry l * entry m * entry r := by
  rcases eliminateFeeExcess_cases h with ⟨z, hl, hz, rfl⟩ | ⟨z, hr, hz, rfl⟩ | ⟨hm, rfl⟩
  · rw [entry_absorb hl hz]
  · rw [entry_absorb hr hz, entry_comm hr, mul_assoc]
  · rw [show entry m = 1 from entry_zero hm, mul_one]

/-- What `rebalance` can do: excesses of one token are added up, with the left
one's token replaced when it is zero; then the zero excesses get the default
token. -/
theorem rebalance_cases {t t' : FeeExcess} (h : rebalance t = .ok t') :
    (∃ z, (t.feeExcessL.magnitude = 0 ∨ t.feeTokenL = t.feeTokenR) ∧
        SignedAmount.add t.feeExcessL t.feeExcessR = some z ∧
        t' = ⟨if z.magnitude = 0 then TokenId.default else t.feeTokenR, z, TokenId.default, .zero⟩) ∨
      (t.feeExcessL.magnitude ≠ 0 ∧ t.feeTokenL ≠ t.feeTokenR ∧
        t' = ⟨t.feeTokenL, t.feeExcessL,
          if t.feeExcessR.magnitude = 0 then TokenId.default else t.feeTokenR, t.feeExcessR⟩) := by
  obtain ⟨e, he, h⟩ := Exn.andThen_eq_ok.1 h
  have h := (Except.ok.inj h).symm
  by_cases hzero : t.feeExcessL.magnitude = 0
  · rw [if_pos hzero, if_pos rfl] at he
    rw [if_pos hzero] at h
    split at he
    next z hz =>
      cases he
      exact .inl ⟨z, .inl hzero, hz, h.trans (by simp only [SignedAmount.zero, if_true])⟩
    next => cases he
  · rw [if_neg hzero] at he h
    split at he
    next htoken =>
      split at he
      next z hz =>
        cases he
        exact .inl ⟨z, .inr htoken, hz, h.trans (by simp only [SignedAmount.zero, if_true, htoken])⟩
      next => cases he
    next htoken =>
      cases he
      exact .inr ⟨hzero, htoken, h.trans (by rw [if_neg hzero])⟩

theorem entry_default {t : TokenId} {x : SignedAmount} :
    entry (if x.magnitude = 0 then TokenId.default else t, x) = entry (t, x) := by
  split
  next h => rw [entry_zero h, entry_zero h]
  next => rfl

theorem rebalance_run {t t' : FeeExcess} (h : rebalance t = .ok t') : run t' = run t := by
  rcases rebalance_cases h with ⟨z, hl, hz, rfl⟩ | ⟨-, -, rfl⟩
  · rw [run, run, entry_default, entry_zero (x := .zero) rfl, mul_one]
    exact entry_absorb (p := (t.feeTokenL, t.feeExcessL)) (m := (t.feeTokenR, t.feeExcessR)) hl.symm hz
  · rw [run, run, entry_default]

/-- **`combine` multiplies runs.** -/
theorem combine_run {t1 t2 t : FeeExcess} (h : combine t1 t2 = .ok t) : run t = run t1 * run t2 := by
  obtain ⟨e, he, h⟩ := Exn.andThen_eq_ok.1 h
  obtain ⟨e', he', h⟩ := Exn.andThen_eq_ok.1 h
  calc run t = entry e'.1 * entry e'.2 := rebalance_run h
    _ = entry e.1 * entry e.2 * entry (t2.feeTokenR, t2.feeExcessR) := eliminateFeeExcess_entry he'
    _ = run t1 * run t2 := by rw [eliminateFeeExcess_entry he, run, run, mul_assoc]

/-! ## The canonical form -/

/-- A zero excess has the default token and the sign `Pos`, a single nonzero
excess is on the left, and two nonzero excesses have different tokens. -/
structure Canonical (t : FeeExcess) : Prop where
  signL : t.feeExcessL.Canonical
  signR : t.feeExcessR.Canonical
  tokenL : t.feeExcessL.magnitude = 0 → t.feeTokenL = TokenId.default
  tokenR : t.feeExcessR.magnitude = 0 → t.feeTokenR = TokenId.default
  left : t.feeExcessL.magnitude = 0 → t.feeExcessR.magnitude = 0
  distinct : t.feeExcessR.magnitude ≠ 0 → t.feeTokenL ≠ t.feeTokenR

theorem canonical_iff {t : FeeExcess} :
    t.Canonical ↔ t.feeExcessL.Canonical ∧ t.feeExcessR.Canonical ∧
      (t.feeExcessL.magnitude = 0 → t.feeTokenL = TokenId.default ∧ t.feeExcessR.magnitude = 0) ∧
      (t.feeExcessR.magnitude = 0 → t.feeTokenR = TokenId.default) ∧
      (t.feeExcessR.magnitude ≠ 0 → t.feeTokenL ≠ t.feeTokenR) := by
  constructor
  · intro h
    exact ⟨h.signL, h.signR, fun hl => ⟨h.tokenL hl, h.left hl⟩, h.tokenR, h.distinct⟩
  · intro h
    exact ⟨h.1, h.2.1, fun hl => (h.2.2.1 hl).1, h.2.2.2.1, fun hl => (h.2.2.1 hl).2, h.2.2.2.2⟩

instance (t : FeeExcess) : Decidable t.Canonical := decidable_of_iff _ canonical_iff.symm

theorem eliminateFeeExcess_sign {l m r : TokenId × SignedAmount}
    {e : (TokenId × SignedAmount) × (TokenId × SignedAmount)} (h : eliminateFeeExcess l m r = .ok e)
    (hl : l.2.Canonical) (hm : m.2.Canonical) (hr : r.2.Canonical) : e.1.2.Canonical ∧ e.2.2.Canonical := by
  rcases eliminateFeeExcess_cases h with ⟨z, -, hz, rfl⟩ | ⟨z, -, hz, rfl⟩ | ⟨-, rfl⟩
  · exact ⟨hl.add hm hz, hr⟩
  · exact ⟨hl, hr.add hm hz⟩
  · exact ⟨hl, hr⟩

theorem rebalance_canonical {t t' : FeeExcess} (h : rebalance t = .ok t') (hl : t.feeExcessL.Canonical)
    (hr : t.feeExcessR.Canonical) : t'.Canonical := by
  rcases rebalance_cases h with ⟨z, -, hz, rfl⟩ | ⟨hzero, htoken, rfl⟩
  · exact {
      signL := hl.add hr hz
      signR := SignedAmount.zero_canonical
      tokenL := fun hz => if_pos hz
      tokenR := fun _ => rfl
      left := fun _ => rfl
      distinct := fun h => absurd rfl h }
  · exact {
      signL := hl
      signR := hr
      tokenL := fun h => absurd h hzero
      tokenR := fun h => if_pos h
      left := fun h => absurd h hzero
      distinct := fun h => by rwa [if_neg h] }

theorem combine_canonical {t1 t2 t : FeeExcess} (h1 : t1.Canonical) (h2 : t2.Canonical)
    (h : combine t1 t2 = .ok t) : t.Canonical := by
  obtain ⟨e, he, h⟩ := Exn.andThen_eq_ok.1 h
  obtain ⟨e', he', h⟩ := Exn.andThen_eq_ok.1 h
  obtain ⟨hl, hr⟩ := eliminateFeeExcess_sign he h1.signL h1.signR h2.signL
  obtain ⟨hl, hr⟩ := eliminateFeeExcess_sign he' hl hr h2.signR
  exact rebalance_canonical h hl hr

/-- The nonzero excesses, in order. -/
def letters (t : FeeExcess) : List (Σ _ : TokenId, Multiplicative ℤ) :=
  (if t.feeExcessL.magnitude = 0 then [] else [⟨t.feeTokenL, Multiplicative.ofAdd t.feeExcessL.toInt⟩]) ++
    if t.feeExcessR.magnitude = 0 then [] else [⟨t.feeTokenR, Multiplicative.ofAdd t.feeExcessR.toInt⟩]

theorem ofAdd_ne_one {x : SignedAmount} (h : x.magnitude ≠ 0) : Multiplicative.ofAdd x.toInt ≠ 1 :=
  fun hx => h (SignedAmount.magnitude_eq_zero.2 (ofAdd_eq_one.1 hx))

/-- A canonical fee excess is a reduced word. -/
def Canonical.word {t : FeeExcess} (h : t.Canonical) : CoprodI.Word fun _ : TokenId => Multiplicative ℤ where
  toList := t.letters
  ne_one l hl := by
    rw [letters, List.mem_append] at hl
    rcases hl with hl | hl <;> split at hl
    · cases hl
    · rw [List.mem_singleton.1 hl]
      exact ofAdd_ne_one ‹_›
    · cases hl
    · rw [List.mem_singleton.1 hl]
      exact ofAdd_ne_one ‹_›
  chain_ne := by
    rw [letters]
    split <;> split
    · exact .nil
    · exact .singleton _
    · exact .singleton _
    · exact .cons_cons (h.distinct ‹_›) (.singleton _)

theorem Canonical.word_prod {t : FeeExcess} (h : t.Canonical) : h.word.prod = run t := by
  change (t.letters.map fun l => (CoprodI.of (i := l.1) l.2 : Run)).prod = run t
  rw [letters, List.map_append, List.prod_append, run]
  congr 1 <;> split
  next hzero => exact (entry_zero hzero).symm
  next => rw [List.map_singleton, List.prod_singleton]; rfl
  next hzero => exact (entry_zero hzero).symm
  next => rw [List.map_singleton, List.prod_singleton]; rfl

/-- The entry of the `i`-th letter, or what stands for none. -/
def letterAt (l : List (Σ _ : TokenId, Multiplicative ℤ)) (i : Nat) : TokenId × ℤ :=
  (l[i]?.map fun e => (e.1, e.2.toAdd)).getD (TokenId.default, 0)

theorem Canonical.letterAt_zero {t : FeeExcess} (h : t.Canonical) :
    letterAt t.letters 0 = (t.feeTokenL, t.feeExcessL.toInt) := by
  rw [letters, letterAt]
  split
  next hzero => rw [if_pos (h.left hzero), h.tokenL hzero, SignedAmount.magnitude_eq_zero.1 hzero]; rfl
  next => rfl

theorem Canonical.letterAt_one {t : FeeExcess} (h : t.Canonical) :
    letterAt t.letters 1 = (t.feeTokenR, t.feeExcessR.toInt) := by
  rw [letters, letterAt]
  split
  next hzero =>
    have hr := h.left hzero
    rw [if_pos hr, h.tokenR hr, SignedAmount.magnitude_eq_zero.1 hr]
    rfl
  next =>
    split
    next hr => rw [h.tokenR hr, SignedAmount.magnitude_eq_zero.1 hr]; rfl
    next => rfl

/-- A canonical fee excess is determined by its run. -/
theorem Canonical.run_inj {t t' : FeeExcess} (h : t.Canonical) (h' : t'.Canonical) (hrun : run t = run t') :
    t = t' := by
  rw [← h.word_prod, ← h'.word_prod] at hrun
  have hletters : t.letters = t'.letters := congrArg (·.toList) (CoprodI.Word.equiv.symm.injective hrun)
  have hl := h.letterAt_zero
  have hr := h.letterAt_one
  rw [hletters, h'.letterAt_zero, Prod.mk.injEq] at hl
  rw [hletters, h'.letterAt_one, Prod.mk.injEq] at hr
  rw [FeeExcess.mk.injEq]
  exact ⟨hl.1.symm, h.signL.eq_of_toInt h'.signL hl.2.symm, hr.1.symm, h.signR.eq_of_toInt h'.signR hr.2.symm⟩

/-! ## Conservation -/

/-- The signed total of a token. -/
def signedTotal (t : FeeExcess) (token : TokenId) : ℤ :=
  (if t.feeTokenL = token then t.feeExcessL.toInt else 0) + if t.feeTokenR = token then t.feeExcessR.toInt else 0

/-- The total of a token over a run. -/
def total (token : TokenId) : Run →* Multiplicative ℤ :=
  CoprodI.lift fun t => if t = token then MonoidHom.id _ else 1

theorem total_run (t : FeeExcess) (token : TokenId) :
    total token (run t) = Multiplicative.ofAdd (t.signedTotal token) := by
  rw [run, map_mul, entry, entry, total, CoprodI.lift_of, CoprodI.lift_of, signedTotal, ofAdd_add]
  split <;> split <;> rfl

theorem combine_signedTotal {t1 t2 t : FeeExcess} (h : combine t1 t2 = .ok t) (token : TokenId) :
    t.signedTotal token = t1.signedTotal token + t2.signedTotal token := by
  have := congrArg (total token) (combine_run h)
  rwa [map_mul, total_run, total_run, total_run, ← ofAdd_add] at this

/-! ## Neutral element and bracketing -/

theorem empty_canonical : empty.Canonical where
  signL := SignedAmount.zero_canonical
  signR := SignedAmount.zero_canonical
  tokenL _ := rfl
  tokenR _ := rfl
  left _ := rfl
  distinct h := absurd rfl h

theorem rebalance_of_canonical {t : FeeExcess} (h : t.Canonical) : rebalance t = .ok t := by
  obtain ⟨tl, el, tr, er⟩ := t
  obtain ⟨signL, signR, tokenL, tokenR, left, distinct⟩ := h
  simp only at signL signR tokenL tokenR left distinct
  by_cases hl : el.magnitude = 0
  · obtain rfl := signL.eq_zero hl
    obtain rfl := signR.eq_zero (left hl)
    rw [tokenL hl, tokenR rfl]
    rfl
  · by_cases hr : er.magnitude = 0
    · obtain rfl := signR.eq_zero hr
      by_cases htoken : tl = tr
      · simp only [rebalance, if_neg hl, if_pos htoken, SignedAmount.add_zero signL, Exn.andThen_ok]
        rw [if_pos hr, tokenR hr]
      · simp only [rebalance, if_neg hl, if_neg htoken, Exn.andThen_ok]
        rw [if_pos hr, tokenR hr]
    · simp only [rebalance, if_neg hl, if_neg hr, if_neg (distinct hr), Exn.andThen_ok]

theorem addErr_zero {x : SignedAmount} (hx : x.Canonical) : addErr x .zero = .ok x :=
  addErr_eq_ok.2 (SignedAmount.add_zero hx)

theorem zero_addErr {x : SignedAmount} (hx : x.Canonical) : addErr .zero x = .ok x :=
  addErr_eq_ok.2 (SignedAmount.zero_add hx)

/-- A zero on the left takes the middle excess. -/
theorem eliminateFeeExcess_zero_left {m : TokenId × SignedAmount} (hm : m.2.Canonical) (token : TokenId)
    (r : TokenId × SignedAmount) : eliminateFeeExcess (token, .zero) m r = .ok (m, r) := by
  rw [eliminateFeeExcess, if_pos (.inr rfl), zero_addErr hm, Exn.andThen_ok]

/-- A zero on the right takes the middle excess that the left cannot. -/
theorem eliminateFeeExcess_zero_right {l m : TokenId × SignedAmount} (hl : l.2.magnitude ≠ 0)
    (hlm : l.1 ≠ m.1) (hm : m.2.Canonical) (token : TokenId) :
    eliminateFeeExcess l m (token, .zero) = .ok (l, m) := by
  rw [eliminateFeeExcess, if_neg (by rintro (h | h) <;> contradiction), if_pos (.inr rfl), zero_addErr hm,
    Exn.andThen_ok]

theorem eliminateFeeExcess_zeros {l : TokenId × SignedAmount} (hl : l.2.magnitude ≠ 0) (hsign : l.2.Canonical)
    (token : TokenId) :
    eliminateFeeExcess l (token, .zero) (token, .zero) = .ok (l, (token, .zero)) := by
  by_cases htoken : l.1 = token
  · rw [eliminateFeeExcess, if_pos (.inl htoken), addErr_zero hsign, Exn.andThen_ok, ← htoken]
  · exact eliminateFeeExcess_zero_right hl htoken SignedAmount.zero_canonical token

theorem empty_combine {t : FeeExcess} (h : t.Canonical) : combine empty t = .ok t := by
  rw [combine, empty, eliminateFeeExcess_zero_left SignedAmount.zero_canonical, Exn.andThen_ok,
    eliminateFeeExcess_zero_left h.signL, Exn.andThen_ok]
  exact rebalance_of_canonical h

theorem combine_empty {t : FeeExcess} (h : t.Canonical) : combine t empty = .ok t := by
  by_cases hr : t.feeExcessR.magnitude = 0
  · by_cases hl : t.feeExcessL.magnitude = 0
    · have hempty : t = empty := by
        rw [empty, ← h.tokenL hl, FeeExcess.mk.injEq]
        exact ⟨rfl, h.signL.eq_zero hl, (h.tokenR hr).trans (h.tokenL hl).symm, h.signR.eq_zero hr⟩
      rw [hempty, empty_combine empty_canonical]
    · rw [combine, empty, h.tokenR hr, h.signR.eq_zero hr, eliminateFeeExcess_zeros hl h.signL, Exn.andThen_ok,
        eliminateFeeExcess_zeros hl h.signL, Exn.andThen_ok]
      refine (congrArg rebalance ?_).trans (rebalance_of_canonical h)
      rw [FeeExcess.mk.injEq]
      exact ⟨rfl, rfl, (h.tokenR hr).symm, (h.signR.eq_zero hr).symm⟩
  · have hl : t.feeExcessL.magnitude ≠ 0 := fun hl => hr (h.left hl)
    have hlm := h.distinct hr
    rw [combine, empty, eliminateFeeExcess_zero_right hl hlm h.signR, Exn.andThen_ok,
      eliminateFeeExcess_zero_right hl hlm h.signR, Exn.andThen_ok]
    exact rebalance_of_canonical h

/-- **`combine` conserves and canonicalises.** Of canonical excesses it keeps
the signed total of every token, its result is canonical, and an empty excess
on either side leaves the other argument. -/
theorem combine_conserves {fe1 fe2 : FeeExcess} (h1 : fe1.Canonical) (h2 : fe2.Canonical) :
    (∀ fe, combine fe1 fe2 = .ok fe →
        (∀ token, fe.signedTotal token = fe1.signedTotal token + fe2.signedTotal token) ∧ fe.Canonical) ∧
      combine fe1 empty = .ok fe1 ∧ combine empty fe2 = .ok fe2 := by
  exact ⟨fun fe h => ⟨combine_signedTotal h, combine_canonical h1 h2 h⟩, combine_empty h1, empty_combine h2⟩

namespace Sample

/-- A fee of 5 in the token 2. -/
def payment : FeeExcess := ⟨2, ⟨5, .pos⟩, TokenId.default, .zero⟩

/-- That fee handed out, and then a fee of 7 in the token 3. -/
def transferThenPayment : FeeExcess := ⟨2, ⟨5, .neg⟩, 3, ⟨7, .pos⟩⟩

/-- The fee of 7 handed out. -/
def transfer : FeeExcess := ⟨3, ⟨7, .neg⟩, TokenId.default, .zero⟩

end Sample

theorem combine_conserves_sample :
    ∃ fe, combine Sample.payment Sample.transferThenPayment = .ok fe ∧ fe.Canonical ∧
      ∀ token, fe.signedTotal token =
        Sample.payment.signedTotal token + Sample.transferThenPayment.signedTotal token :=
  have h := (@combine_conserves Sample.payment Sample.transferThenPayment (by decide) (by decide)).1 ⟨3, ⟨7, .pos⟩, TokenId.default, .zero⟩ rfl
  ⟨_, rfl, h.2, h.1⟩

/-- **The bracketing does not matter.** Both bracketings of three canonical
excesses have the same product of runs, so when both succeed they are equal. -/
theorem combine_assoc {a b c ab bc x y : FeeExcess} (ha : a.Canonical) (hb : b.Canonical) (hc : c.Canonical)
    (hab : combine a b = .ok ab) (hx : combine ab c = .ok x) (hbc : combine b c = .ok bc)
    (hy : combine a bc = .ok y) : x = y := by
  refine (combine_canonical (combine_canonical ha hb hab) hc hx).run_inj
    (combine_canonical ha (combine_canonical hb hc hbc) hy) ?_
  rw [combine_run hx, combine_run hab, combine_run hy, combine_run hbc, mul_assoc]

theorem combine_assoc_sample :
    ∃ ab bc x y, combine Sample.payment Sample.transferThenPayment = .ok ab ∧
      combine ab Sample.transfer = .ok x ∧ combine Sample.transferThenPayment Sample.transfer = .ok bc ∧
      combine Sample.payment bc = .ok y ∧ x = y :=
  ⟨_, _, _, _, rfl, rfl, rfl, rfl,
    combine_assoc (a := Sample.payment) (b := Sample.transferThenPayment) (c := Sample.transfer) (by decide)
      (by decide) (by decide) rfl rfl rfl rfl⟩

end FeeExcess

end Mina
