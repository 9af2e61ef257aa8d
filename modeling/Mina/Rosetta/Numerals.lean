/-
The numerals of Rosetta's amounts and token ids.

`UInt64.of_string` accepts decimal numerals below 2^64 and raises on anything
else. `Int64.of_string` is the one of the standard library: a sign, a base,
and underscores after the first digit; without a base the number has to fit,
with one it may be any of 64 bits.
-/
import Mina.Base.CurrencyFormat
import Mina.Base.Int64

namespace Mina.Rosetta

/-- `Unsigned.UInt64.t` -/
abbrev Uint64 := Fin (2 ^ 64)

/-- `Unsigned.UInt32.t` -/
abbrev Uint32 := Fin (2 ^ 32)

namespace Uint64

def toString (n : Uint64) : String := String.ofList (Nat.toDigits 10 n.val)

def ofString (s : String) : Exn Uint64 :=
  if h : s.toList ≠ [] ∧ s.toList.all Char.isDigit = true ∧ Currency.value s.toList < 2 ^ 64 then
    .ok ⟨Currency.value s.toList, h.2.2⟩
  else .error "UInt64.of_string"

end Uint64

namespace Int64

def toString (n : Int) : String :=
  if n < 0 then String.ofList ('-' :: Nat.toDigits 10 n.natAbs) else String.ofList (Nat.toDigits 10 n.natAbs)

/-- `parse_digit` -/
def digitValue (c : Char) : Option Nat :=
  if c.isDigit then some (c.toNat - 48)
  else if 'a' ≤ c ∧ c ≤ 'f' then some (c.toNat - 87)
  else if 'A' ≤ c ∧ c ≤ 'F' then some (c.toNat - 55)
  else none

def readDigits (base : Nat) : Nat → List Char → Option Nat
  | acc, [] => some acc
  | acc, c :: cs =>
    if c = '_' then readDigits base acc cs
    else
      match digitValue c with
      | none => none
      | some d => if d < base then readDigits base (base * acc + d) cs else none

/-- The first character is a digit. -/
def readNumber (base : Nat) : List Char → Option Nat
  | [] => none
  | c :: cs => if c = '_' then none else readDigits base 0 (c :: cs)

structure Sign where
  negative : Bool
  rest : List Char

def readSign : List Char → Sign
  | [] => ⟨false, []⟩
  | c :: cs => if c = '-' then ⟨true, cs⟩ else if c = '+' then ⟨false, cs⟩ else ⟨false, c :: cs⟩

structure Base where
  base : Nat
  signed : Bool
  rest : List Char

/-- `0x`, `0o`, `0b` and `0u` -/
def readBase (cs : List Char) : Base :=
  if cs.head? = some '0' then
    match cs.tail.head? with
    | none => ⟨10, true, cs⟩
    | some c =>
      if c = 'x' ∨ c = 'X' then ⟨16, false, cs.drop 2⟩
      else if c = 'o' ∨ c = 'O' then ⟨8, false, cs.drop 2⟩
      else if c = 'b' ∨ c = 'B' then ⟨2, false, cs.drop 2⟩
      else if c = 'u' ∨ c = 'U' then ⟨10, false, cs.drop 2⟩
      else ⟨10, true, cs⟩
  else ⟨10, true, cs⟩

/-- The numbers that are read. -/
def bound (signed negative : Bool) : Nat :=
  if signed then (if negative then 2 ^ 63 else 2 ^ 63 - 1) else 2 ^ 64 - 1

def ofString (s : String) : Exn Int :=
  let sign := readSign s.toList
  let base := readBase sign.rest
  match readNumber base.base base.rest with
  | none => .error "Int64.of_string"
  | some n =>
    if n ≤ bound base.signed sign.negative then .ok (int64 (if sign.negative then -n else n))
    else .error "Int64.of_string"

def neg (n : Int) : Int := int64 (-n)

end Int64

/-! ## Unsigned numerals -/

theorem toDigits_ne_nil (n : Nat) : Nat.toDigits 10 n ≠ [] := Nat.toDigits_ne_nil

theorem all_digits (n : Nat) : (Nat.toDigits 10 n).all Char.isDigit = true :=
  List.all_eq_true.2 fun _ hc => Currency.toDigits_digit hc

theorem Uint64.ofString_toString (n : Uint64) : Uint64.ofString n.toString = .ok n := by
  have hlist : n.toString.toList = Nat.toDigits 10 n.val := String.toList_ofList
  unfold Uint64.ofString
  rw [dif_pos]
  · congr 1
    apply Fin.ext
    dsimp only
    rw [hlist, Currency.value_toDigits]
  · rw [hlist, Currency.value_toDigits]
    exact ⟨toDigits_ne_nil _, all_digits _, n.isLt⟩

theorem Uint64.toString_inj {m n : Uint64} (h : m.toString = n.toString) : m = n := by
  have hm := Uint64.ofString_toString m
  rw [h, Uint64.ofString_toString] at hm
  exact (Except.ok.inj hm).symm

/-! ## Signed numerals -/

theorem digitValue_digit {c : Char} (h : c.isDigit = true) : Int64.digitValue c = some (c.toNat - 48) ∧ c.toNat - 48 < 10 := by
  rw [Int64.digitValue, if_pos h]
  rw [Char.isDigit_iff_toNat] at h
  have hzero : '0'.toNat = 48 := rfl
  have hnine : '9'.toNat = 57 := rfl
  exact ⟨rfl, by omega⟩

theorem digit_ne {c d : Char} (h : c.isDigit = true) (hd : d.isDigit = false) : c ≠ d := by
  rintro rfl
  rw [h] at hd
  cases hd

theorem readDigits_digits : ∀ {cs : List Char} (acc : Nat), cs.all Char.isDigit = true →
    Int64.readDigits 10 acc cs = some (Nat.ofDigitChars 10 cs acc)
  | [], acc, _ => rfl
  | c :: cs, acc, h => by
    rw [List.all_cons, Bool.and_eq_true] at h
    obtain ⟨hvalue, hlt⟩ := digitValue_digit h.1
    rw [Int64.readDigits, if_neg (digit_ne h.1 rfl), hvalue]
    dsimp only
    rw [if_pos hlt, readDigits_digits _ h.2, Nat.ofDigitChars_cons]
    rfl

/-- Decimal digits have no base before them. -/
theorem readBase_digits {cs : List Char} (h : cs.all Char.isDigit = true) : Int64.readBase cs = ⟨10, true, cs⟩ := by
  unfold Int64.readBase
  split
  next =>
    split
    next => rfl
    next c hc =>
      have hdigit : c.isDigit = true := by
        rw [List.all_eq_true] at h
        exact h c (List.mem_of_mem_tail (List.mem_of_mem_head? hc))
      have hne : ∀ d : Char, d.isDigit = false → c ≠ d := fun d hd => digit_ne hdigit hd
      rw [if_neg (not_or.2 ⟨hne _ rfl, hne _ rfl⟩), if_neg (not_or.2 ⟨hne _ rfl, hne _ rfl⟩),
        if_neg (not_or.2 ⟨hne _ rfl, hne _ rfl⟩), if_neg (not_or.2 ⟨hne _ rfl, hne _ rfl⟩)]
  next => rfl

theorem readNumber_digits {cs : List Char} (hne : cs ≠ []) (h : cs.all Char.isDigit = true) :
    Int64.readNumber 10 cs = some (Currency.value cs) := by
  cases cs with
  | nil => exact absurd rfl hne
  | cons c cs =>
    have hc := h
    rw [List.all_cons, Bool.and_eq_true] at hc
    rw [Int64.readNumber, if_neg (digit_ne hc.1 rfl), readDigits_digits _ h]
    rfl

theorem Int64.ofString_digits (n : Nat) : Int64.ofString (String.ofList (Nat.toDigits 10 n)) =
    if n < 2 ^ 63 then .ok (n : Int) else .error "Int64.of_string" := by
  have hsign : Int64.readSign (Nat.toDigits 10 n) = ⟨false, Nat.toDigits 10 n⟩ := by
    have hall := all_digits n
    generalize Nat.toDigits 10 n = cs at hall
    cases cs with
    | nil => rfl
    | cons c cs =>
      rw [List.all_cons, Bool.and_eq_true] at hall
      rw [Int64.readSign, if_neg (digit_ne hall.1 rfl), if_neg (digit_ne hall.1 rfl)]
  rw [Int64.ofString, String.toList_ofList, hsign]
  dsimp only
  rw [readBase_digits (all_digits n)]
  dsimp only
  rw [readNumber_digits (toDigits_ne_nil n) (all_digits n), Currency.value_toDigits]
  dsimp only
  have hbound : Int64.bound true false = 2 ^ 63 - 1 := rfl
  by_cases hlt : n < 2 ^ 63
  · rw [if_pos (hbound ▸ Nat.le_sub_one_of_lt hlt), if_pos hlt, if_neg Bool.false_ne_true, int64_of_fits]
    rw [Fits64]
    omega
  · rw [if_neg (by omega), if_neg hlt]

theorem Int64.ofString_negative {n : Nat} (hn : n ≤ 2 ^ 63) :
    Int64.ofString (String.ofList ('-' :: Nat.toDigits 10 n)) = .ok (-n : Int) := by
  rw [Int64.ofString, String.toList_ofList, Int64.readSign, if_pos rfl]
  dsimp only
  rw [readBase_digits (all_digits n)]
  dsimp only
  rw [readNumber_digits (toDigits_ne_nil n) (all_digits n), Currency.value_toDigits]
  dsimp only
  rw [if_pos (show n ≤ Int64.bound true true from hn), if_pos rfl, int64_of_fits]
  rw [Fits64]
  omega

theorem Int64.ofString_toString {n : Int} (h : Fits64 n) : Int64.ofString (Int64.toString n) = .ok n := by
  obtain ⟨hlo, hhi⟩ := h
  unfold Int64.toString
  split
  next hneg =>
    rw [Int64.ofString_negative (by omega)]
    congr 1
    omega
  next hnonneg =>
    rw [Int64.ofString_digits, if_pos (by omega)]
    congr 1
    omega

theorem Int64.toString_inj {m n : Int} (hm : Fits64 m) (hn : Fits64 n) (h : Int64.toString m = Int64.toString n) : m = n := by
  have heq := Int64.ofString_toString hm
  rw [h, Int64.ofString_toString hn] at heq
  exact (Except.ok.inj heq).symm

theorem Int64.ofString_fits {s : String} {n : Int} (h : Int64.ofString s = .ok n) : Fits64 n := by
  unfold Int64.ofString at h
  dsimp only at h
  split at h
  next => cases h
  next =>
    split at h
    next => exact Except.ok.inj h ▸ int64_fits _
    next => cases h

theorem Int64.neg_of_lt {n : Int} (h : Fits64 n) (hmin : n ≠ -2 ^ 63) : Int64.neg n = -n := by
  obtain ⟨hlo, hhi⟩ := h
  refine int64_of_fits ?_
  rw [Fits64]
  omega

/-! ## Unsigned and signed -/

theorem Int64.toString_natCast (n : Nat) : Int64.toString n = String.ofList (Nat.toDigits 10 n) := by
  rw [Int64.toString, if_neg (by omega), Int.natAbs_natCast]

/-- A signed numeral is an unsigned one if it has no sign. -/
theorem Uint64.ofString_int64 {i : Int} (hi : Fits64 i) {n : Uint64} :
    Uint64.ofString (Int64.toString i) = .ok n ↔ (n.val : Int) = i := by
  obtain ⟨hlo, hhi⟩ := hi
  by_cases hneg : i < 0
  · have hminus : ¬ ((Int64.toString i).toList.all Char.isDigit = true) := by
      rw [Int64.toString, if_pos hneg, String.toList_ofList, List.all_cons]
      exact Bool.false_ne_true
    rw [Uint64.ofString, dif_neg fun h => hminus h.2.1]
    refine iff_of_false (fun h => (by cases h)) fun h => ?_
    omega
  · obtain ⟨k, rfl⟩ := Int.eq_ofNat_of_zero_le (not_lt.1 hneg)
    have hk : k < 2 ^ 64 := by omega
    rw [Int64.toString_natCast, show String.ofList (Nat.toDigits 10 k) = Uint64.toString ⟨k, hk⟩ from rfl,
      Uint64.ofString_toString, Except.ok.injEq]
    constructor
    · rintro rfl
      rfl
    · intro h
      exact Fin.ext (Int.ofNat_inj.1 h).symm

end Mina.Rosetta
