/-
Amounts as decimals of nine places (`currency/currency.ml`).

A string is the list of its characters. The parser of unsigned integers is a
parameter: it accepts the strings of digits, not empty, of numbers that fit
(`Parses`). An amount is read from its digits before and after the dot, with
as many of the latter as there are places: as the number is cut or padded at
the end, this rounds down (`places_value`), and what is printed has exactly
the places that are needed (`format_places`).
-/
import Mina.Base.Exn
import Mina.Base.Currency

namespace Mina.Currency

/-- `Unsigned.to_string`. -/
def toString (n : Amount) : List Char := Nat.toDigits 10 n.val

def precision : Nat := 9

def precisionExp : Amount := 1000000000

/-- `%0*d` -/
def zeroPad (width : Nat) (s : List Char) : List Char := List.replicate (width - s.length) '0' ++ s

/-- `go` of `to_formatted_string`. -/
def stripZeros (numStrippedZeros num : Nat) : Nat × Nat :=
  if num % 10 = 0 ∧ num ≠ 0 then stripZeros (numStrippedZeros + 1) (num / 10) else (numStrippedZeros, num)
termination_by num

def toFormattedString (amount : Amount) : List Char :=
  let whole := amount / precisionExp
  let remainder := (amount % precisionExp).val
  if remainder = 0 then toString whole
  else
    let stripped := stripZeros 0 remainder
    toString whole ++ '.' :: zeroPad (precision - stripped.1) (Nat.toDigits 10 stripped.2)

def ofFormattedString (ofString : List Char → Exn Amount) (input : List Char) : Exn Amount :=
  match input.splitOn '.' with
  | [whole] => ofString (whole ++ List.replicate precision '0')
  | [whole, decimal] =>
    let decimalLength := decimal.length
    if decimalLength > precision then ofString (whole ++ decimal.take precision)
    else ofString (whole ++ decimal ++ List.replicate (precision - decimalLength) '0')
  | _ => .error "Currency.of_formatted_string: Invalid currency input"

/-! ## Digits -/

/-- The number that digits denote. -/
def value (s : List Char) : Nat := Nat.ofDigitChars 10 s 0

/-- The parser of unsigned integers of 64 bits. -/
def Parses (ofString : List Char → Exn Amount) : Prop :=
  ∀ s n, ofString s = .ok n ↔ s ≠ [] ∧ (∀ c ∈ s, c.isDigit = true) ∧ value s = n.val

theorem value_append (s t : List Char) : value (s ++ t) = value s * 10 ^ t.length + value t := by
  rw [value, Nat.ofDigitChars_append, Nat.ofDigitChars_eq_ofDigitChars_zero, Nat.mul_comm]
  rfl

theorem value_zeros (n : Nat) : value (List.replicate n '0') = 0 := by
  rw [value, Nat.ofDigitChars_replicate_zero, Nat.mul_zero]

theorem value_toDigits (n : Nat) : value (Nat.toDigits 10 n) = n := Nat.ofDigitChars_ten_toDigits

theorem toDigits_digit {n : Nat} {c : Char} (hc : c ∈ Nat.toDigits 10 n) : c.isDigit = true :=
  Nat.isDigit_of_mem_toDigits (by decide) (by decide) hc

theorem value_lt {s : List Char} (hs : ∀ c ∈ s, c.isDigit = true) : value s < 10 ^ s.length := by
  induction s using List.reverseRecOn with
  | nil => decide
  | append_singleton s c ih =>
    have hlt := ih fun c hc => hs c (List.mem_append_left _ hc)
    have hdigit := hs c (List.mem_append_right _ List.mem_cons_self)
    have hc : value [c] < 10 := by
      rw [Char.isDigit_iff_toNat] at hdigit
      rw [value, Nat.ofDigitChars_cons, Nat.ofDigitChars_nil]
      have hzero : '0'.toNat = 48 := rfl
      have hnine : '9'.toNat = 57 := rfl
      omega
    rw [value_append, List.length_append, List.length_singleton, Nat.pow_one, Nat.pow_succ]
    omega

theorem not_dot {s : List Char} (hs : ∀ c ∈ s, c.isDigit = true) : '.' ∉ s := fun hmem => by
  have hdot := hs _ hmem
  cases hdot

/-! ## Reading -/

section Reading

variable {ofString : List Char → Exn Amount} (hparse : Parses ofString) {whole decimal : List Char}

/-- The digits after the dot, cut or padded to the places of an amount. -/
def places (decimal : List Char) : List Char :=
  if decimal.length > precision then decimal.take precision
  else decimal ++ List.replicate (precision - decimal.length) '0'

theorem places_digit (hdecimal : ∀ c ∈ decimal, c.isDigit = true) : ∀ c ∈ places decimal, c.isDigit = true := by
  intro c hc
  rw [places] at hc
  split at hc
  · exact hdecimal c (List.mem_of_mem_take hc)
  · rcases List.mem_append.1 hc with hc | hc
    · exact hdecimal c hc
    · rw [List.eq_of_mem_replicate hc]
      rfl

theorem places_length : (places decimal).length = precision := by
  rw [places]
  split
  next hlt => rw [List.length_take, Nat.min_eq_left hlt.le]
  next hle => rw [List.length_append, List.length_replicate, Nat.add_sub_cancel' (not_lt.1 hle)]

/-- Cutting the digits after the dot rounds down. -/
theorem places_value (hdecimal : ∀ c ∈ decimal, c.isDigit = true) :
    value (whole ++ places decimal) = value (whole ++ decimal) * 10 ^ precision / 10 ^ decimal.length := by
  have hpos : ∀ n, 0 < 10 ^ n := fun n => Nat.pow_pos (by decide)
  rw [places]
  split
  next hlt =>
    obtain ⟨k, hk⟩ := Nat.exists_eq_add_of_lt hlt
    have hsplit : whole ++ decimal = whole ++ decimal.take precision ++ decimal.drop precision := by
      rw [List.append_assoc, List.take_append_drop]
    have hrest : value (decimal.drop precision) < 10 ^ (k + 1) := by
      have hlt := value_lt (s := decimal.drop precision) fun c hc => hdecimal c (List.mem_of_mem_drop hc)
      rwa [List.length_drop, hk, show precision + k + 1 - precision = k + 1 by omega] at hlt
    rw [hsplit, value_append (whole ++ decimal.take precision), List.length_drop, hk,
      show precision + k + 1 - precision = k + 1 by omega, Nat.add_assoc, Nat.pow_add 10 precision, Nat.mul_comm,
      Nat.mul_div_mul_left _ _ (hpos precision), Nat.mul_comm _ (10 ^ (k + 1)), Nat.mul_add_div (hpos _),
      Nat.div_eq_of_lt hrest, Nat.add_zero]
  next hle =>
    have hpow : 10 ^ precision = 10 ^ (precision - decimal.length) * 10 ^ decimal.length := by
      rw [← Nat.pow_add, Nat.sub_add_cancel (not_lt.1 hle)]
    rw [← List.append_assoc, value_append, List.length_replicate, value_zeros, Nat.add_zero, hpow, ← Nat.mul_assoc,
      Nat.mul_div_cancel _ (hpos _)]

include hparse

theorem ofFormattedString_whole (hwhole : ∀ c ∈ whole, c.isDigit = true) {n : Amount}
    (hn : n.val = value whole * 10 ^ precision) : ofFormattedString ofString whole = .ok n := by
  rw [ofFormattedString, List.splitOn_eq_singleton (not_dot hwhole)]
  refine (hparse _ n).2 ⟨by simp [precision], fun c hc => ?_, ?_⟩
  · rcases List.mem_append.1 hc with hc | hc
    · exact hwhole c hc
    · rw [List.eq_of_mem_replicate hc]
      rfl
  · rw [value_append, value_zeros, List.length_replicate, hn, Nat.add_zero]

theorem ofFormattedString_decimal (hwhole : ∀ c ∈ whole, c.isDigit = true)
    (hdecimal : ∀ c ∈ decimal, c.isDigit = true) {n : Amount} (hn : n.val = value (whole ++ places decimal)) :
    ofFormattedString ofString (whole ++ '.' :: decimal) = .ok n := by
  have hsplit : (whole ++ '.' :: decimal).splitOn '.' = [whole, decimal] := by
    rw [List.splitOn_append_cons_self_of_not_mem (not_dot hwhole), List.splitOn_eq_singleton (not_dot hdecimal)]
  have hread : ofFormattedString ofString (whole ++ '.' :: decimal) = ofString (whole ++ places decimal) := by
    rw [ofFormattedString, hsplit, places]
    dsimp only
    split
    · rfl
    · rw [List.append_assoc]
  rw [hread]
  refine (hparse _ n).2 ⟨fun hnil => ?_, fun c hc => ?_, hn.symm⟩
  · have hlen := congrArg List.length hnil
    rw [List.length_append, places_length] at hlen
    cases hlen
  · rcases List.mem_append.1 hc with hc | hc
    · exact hwhole c hc
    · exact places_digit hdecimal c hc

end Reading

/-! ## Printing -/

theorem stripZeros_spec (z n : Nat) (hn : n ≠ 0) :
    ∃ k, (stripZeros z n).1 = z + k ∧ n = (stripZeros z n).2 * 10 ^ k ∧ (stripZeros z n).2 % 10 ≠ 0 := by
  fun_induction stripZeros z n with
  | case1 z n hzero ih =>
    obtain ⟨k, hz, hnum, hlast⟩ := ih (by omega)
    refine ⟨k + 1, by rw [hz]; omega, ?_, hlast⟩
    rw [Nat.pow_succ, ← Nat.mul_assoc, ← hnum]
    omega
  | case2 z n hlast => exact ⟨0, rfl, by rw [Nat.pow_zero, Nat.mul_one], fun hzero => hlast ⟨hzero, hn⟩⟩

theorem toDigits_getLast? (n : Nat) : (Nat.toDigits 10 n).getLast? = some (n % 10).digitChar := by
  rw [Nat.toDigits_eq_if (by decide)]
  split
  next hlt => rw [List.getLast?_singleton, Nat.mod_eq_of_lt hlt]
  next => rw [List.getLast?_concat]

theorem digitChar_ne_zero {d : Nat} (hd : d ≠ 0) (hlt : d < 10) : d.digitChar ≠ '0' := by
  interval_cases d <;> first | exact absurd rfl hd | decide

/-- The digits that are printed after the dot. -/
structure Printed (remainder : Nat) (decimal : List Char) : Prop where
  digit : ∀ c ∈ decimal, c.isDigit = true
  value_eq : value (places decimal) = remainder
  last : ∃ c ∈ decimal.getLast?, c ≠ '0'

theorem zeroPad_digit {width n : Nat} : ∀ c ∈ zeroPad width (Nat.toDigits 10 n), c.isDigit = true := by
  intro c hc
  rcases List.mem_append.1 hc with hc | hc
  · rw [List.eq_of_mem_replicate hc]
    rfl
  · exact toDigits_digit hc

/-- What is printed of the remainder is its places without zeros at the
end. -/
theorem printed {remainder : Nat} (hne : remainder ≠ 0) (hlt : remainder < 10 ^ precision) :
    Printed remainder
      (zeroPad (precision - (stripZeros 0 remainder).1) (Nat.toDigits 10 (stripZeros 0 remainder).2)) := by
  obtain ⟨k, hk, hnum, hlast⟩ := stripZeros_spec 0 remainder hne
  rw [Nat.zero_add] at hk
  generalize (stripZeros 0 remainder).1 = z at hk
  generalize (stripZeros 0 remainder).2 = num at hnum hlast
  subst hk
  have hpos : 0 < num := by omega
  have hz : z < precision := by
    refine (Nat.pow_lt_pow_iff_right (show 1 < 10 by decide)).1 (lt_of_le_of_lt ?_ hlt)
    rw [hnum]
    exact Nat.le_mul_of_pos_left _ hpos
  have hfits : (Nat.toDigits 10 num).length ≤ precision - z := by
    rw [Nat.length_toDigits_le_iff (by decide) (Nat.sub_pos_of_lt hz)]
    refine Nat.lt_of_mul_lt_mul_right (a := 10 ^ z) ?_
    rw [← hnum, ← Nat.pow_add, Nat.sub_add_cancel hz.le]
    exact hlt
  have hlen : (zeroPad (precision - z) (Nat.toDigits 10 num)).length = precision - z := by
    rw [zeroPad, List.length_append, List.length_replicate, Nat.sub_add_cancel hfits]
  refine ⟨zeroPad_digit, ?_, ⟨(num % 10).digitChar, ?_, digitChar_ne_zero hlast (Nat.mod_lt _ (by decide))⟩⟩
  · rw [places, hlen, if_neg (by omega), Nat.sub_sub_self hz.le, value_append, List.length_replicate, value_zeros,
      Nat.add_zero, zeroPad, value_append, value_zeros, Nat.zero_mul, Nat.zero_add, value_toDigits, hnum]
  · rw [zeroPad, List.getLast?_append_of_ne_nil _ Nat.toDigits_ne_nil, toDigits_getLast?]
    exact rfl

theorem amount_val (amount : Amount) :
    (amount / precisionExp).val * 10 ^ precision + (amount % precisionExp).val = amount.val := by
  have hdiv : (amount / precisionExp).val = amount.val / 10 ^ precision := rfl
  have hmod : (amount % precisionExp).val = amount.val % 10 ^ precision := rfl
  rw [hdiv, hmod, Nat.div_add_mod']

theorem toFormattedString_last {amount : Amount} (hdot : '.' ∈ toFormattedString amount) :
    (toFormattedString amount).getLast? ≠ some '0' := by
  rw [toFormattedString] at hdot ⊢
  dsimp only at hdot ⊢
  split at hdot
  next => exact absurd hdot (not_dot fun c hc => toDigits_digit hc)
  next hne =>
    obtain ⟨c, hc, hzero⟩ := (printed hne (Nat.mod_lt _ (by decide))).last
    rw [if_neg hne, List.getLast?_append_of_ne_nil _ (List.cons_ne_nil _ _), List.getLast?_cons]
    rw [Option.mem_def] at hc
    rw [hc, Option.getD_some, Ne, Option.some.injEq]
    exact hzero

theorem ofFormattedString_toFormattedString {ofString : List Char → Exn Amount} (hparse : Parses ofString)
    (amount : Amount) : ofFormattedString ofString (toFormattedString amount) = .ok amount := by
  have hval := amount_val amount
  have hdigits : ∀ c ∈ toString (amount / precisionExp), c.isDigit = true := fun c hc => toDigits_digit hc
  rw [toFormattedString]
  dsimp only
  split
  next hzero =>
    refine ofFormattedString_whole hparse hdigits ?_
    rw [toString, value_toDigits]
    omega
  next hne =>
    have hprinted := printed hne (Nat.mod_lt _ (by decide))
    refine ofFormattedString_decimal hparse hdigits hprinted.digit ?_
    rw [value_append, places_length, hprinted.value_eq, toString, value_toDigits]
    exact hval.symm

/-- **Amounts survive printing and parsing exactly.** What is printed has no
zero at its end after the dot, and every string of digits with at most one dot
is read as the decimal it denotes, rounded down, whenever that fits. -/
theorem formatting_exact {ofString : List Char → Exn Amount} (hparse : Parses ofString) :
    (∀ n : Amount, ofFormattedString ofString (toFormattedString n) = .ok n ∧
      ('.' ∈ toFormattedString n → (toFormattedString n).getLast? ≠ some '0')) ∧
    (∀ whole : List Char, (∀ c ∈ whole, c.isDigit = true) → ∀ n : Amount, n.val = value whole * 10 ^ precision →
      ofFormattedString ofString whole = .ok n) ∧
    ∀ whole decimal : List Char, (∀ c ∈ whole, c.isDigit = true) → (∀ c ∈ decimal, c.isDigit = true) → ∀ n : Amount,
      n.val = value (whole ++ decimal) * 10 ^ precision / 10 ^ decimal.length →
        ofFormattedString ofString (whole ++ '.' :: decimal) = .ok n := by
  refine ⟨fun n => ⟨ofFormattedString_toFormattedString hparse n, toFormattedString_last⟩,
    fun whole hwhole n hn => ofFormattedString_whole hparse hwhole hn, fun whole decimal hwhole hdecimal n hn => ?_⟩
  exact ofFormattedString_decimal hparse hwhole hdecimal (hn.trans (places_value hdecimal).symm)

/-- A parser as it is assumed. -/
def parseDigits (s : List Char) : Exn Amount :=
  if h : s ≠ [] ∧ (∀ c ∈ s, c.isDigit = true) ∧ value s < 2 ^ 64 then .ok ⟨value s, h.2.2⟩
  else .error "UInt64.of_string"

theorem parseDigits_parses : Parses parseDigits := by
  intro s n
  rw [parseDigits]
  split
  next h =>
    rw [Except.ok.injEq, Fin.ext_iff]
    exact ⟨fun hn => ⟨h.1, h.2.1, hn⟩, fun hn => hn.2.2⟩
  next h => exact ⟨fun hok => (by cases hok), fun hn => absurd ⟨hn.1, hn.2.1, hn.2.2 ▸ n.isLt⟩ h⟩

/-- Ten digits after the dot. -/
theorem formatting_exact_tenth :
    ofFormattedString parseDigits ['1', '.', '0', '0', '0', '0', '0', '0', '0', '0', '2', '9'] = .ok 1000000002 :=
  (formatting_exact parseDigits_parses).2.2 ['1'] ['0', '0', '0', '0', '0', '0', '0', '0', '2', '9'] (by simp)
    (by simp) 1000000002 (by decide +kernel)

end Mina.Currency
