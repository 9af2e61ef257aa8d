/-
The fixed-width numbers of `currency/currency.ml` and `mina_numbers`:
amounts, fees and balances of 64 bits, nonces and slots of 32, token ids of
64. A number of `w` bits is a `Fin (2 ^ w)`, so it cannot be out of range,
and `Fin`'s own arithmetic wraps around as the source's machine arithmetic
does. Each checked operation has one lemma that says what it computes, in
`Nat`.
-/
import Mathlib

namespace Mina

abbrev Amount := Fin (2 ^ 64)
abbrev Fee := Fin (2 ^ 64)
abbrev Balance := Fin (2 ^ 64)

abbrev TokenId := Fin (2 ^ 64)
abbrev AccountNonce := Fin (2 ^ 32)
abbrev GlobalSlot := Fin (2 ^ 32)

instance neZero64 : NeZero (2 ^ 64) := ⟨by decide⟩

instance neZero32 : NeZero (2 ^ 32) := ⟨by decide⟩

/-- The keys of maps are compared by their order. -/
instance transOrd {k : Type} [LinearOrder k] : Std.TransOrd k := inferInstance

instance lawfulBEq {k : Type} [LinearOrder k] : LawfulBEq k := inferInstance

namespace Currency

/-- Overflow is seen by the wrapped sum being below a summand. -/
def add (x y : Amount) : Option Amount :=
  let z := x + y
  if z < x then none else some z

def sub (x y : Amount) : Option Amount :=
  if x < y then none else some (x - y)

theorem add_eq_some {x y z : Amount} : add x y = some z ↔ z.val = x.val + y.val := by
  have hx := x.isLt
  have hy := y.isLt
  have hz := z.isLt
  have hsum : (x + y).val = (x.val + y.val) % 2 ^ 64 := Fin.val_add x y
  simp only [add, Fin.lt_def, hsum]
  by_cases h : x.val + y.val < 2 ^ 64
  · rw [Nat.mod_eq_of_lt h, if_neg (by omega), Option.some.injEq, Fin.ext_iff, hsum, Nat.mod_eq_of_lt h]
    exact eq_comm
  · rw [if_pos (by omega)]
    simp only [reduceCtorEq, false_iff]
    omega

theorem add_eq_none {x y : Amount} : add x y = none ↔ 2 ^ 64 ≤ x.val + y.val := by
  cases h : add x y with
  | none =>
    simp only [true_iff]
    by_contra hlt
    have := (add_eq_some (z := ⟨x.val + y.val, by omega⟩)).2 rfl
    simp [h] at this
  | some z =>
    have := add_eq_some.1 h
    have := z.isLt
    simp only [reduceCtorEq, false_iff]
    omega

theorem sub_eq_some {x y z : Amount} : sub x y = some z ↔ y.val ≤ x.val ∧ z.val = x.val - y.val := by
  simp only [sub, Fin.lt_def]
  by_cases h : x.val < y.val
  · rw [if_pos h]
    simp only [reduceCtorEq, false_iff]
    omega
  · rw [if_neg h, Option.some.injEq, Fin.ext_iff, Fin.sub_val_of_le (Fin.le_def.2 (by omega))]
    omega

theorem sub_eq_none {x y : Amount} : sub x y = none ↔ x.val < y.val := by
  simp only [sub, Fin.lt_def]
  split <;> simp_all

end Currency

namespace AccountNonce

/-- `UInt32.succ`: the successor of the largest nonce is zero. -/
def succ (n : AccountNonce) : AccountNonce := n + 1

def maxValue : AccountNonce := Fin.last _

theorem succ_val (n : AccountNonce) : (succ n).val = (n.val + 1) % 2 ^ 32 := by
  rw [succ, Fin.val_add]
  rfl

theorem succ_eq_iff {n m : AccountNonce} :
    succ n = m ↔ m.val = n.val + 1 ∨ n = maxValue ∧ m = 0 := by
  have hn := n.isLt
  have hm := m.isLt
  rw [Fin.ext_iff, succ_val, Fin.ext_iff, Fin.ext_iff]
  simp only [maxValue, Fin.val_last, Fin.val_zero]
  omega

end AccountNonce

namespace GlobalSlot

def maxValue : GlobalSlot := Fin.last _

def add (x y : GlobalSlot) : GlobalSlot := x + y

end GlobalSlot

namespace TokenId

def default : TokenId := 1

def invalid : TokenId := 0

/-- `UInt64.succ`. -/
def next (t : TokenId) : TokenId := t + 1

end TokenId

end Mina
