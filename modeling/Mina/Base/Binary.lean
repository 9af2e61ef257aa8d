/-
Words of bits as numbers, the highest bit first.

Of the words of one length there is one for each number below a power of two
(`number_word`, `word_number`), and the lexicographic order is the order of
the numbers (`lt_iff_number_lt`). A word that ends in a zero and ones has a
next one (`number_carry`).
-/
import Mathlib

namespace Mina.Binary

/-- The number of a word. -/
def number (l : List Bool) : Nat := l.foldl (fun acc b => 2 * acc + b.toNat) 0

theorem foldl_number (l : List Bool) (acc : Nat) :
    l.foldl (fun acc b => 2 * acc + b.toNat) acc = acc * 2 ^ l.length + number l := by
  induction l generalizing acc with
  | nil => rw [List.foldl_nil, List.length_nil, Nat.pow_zero, Nat.mul_one]; rfl
  | cons b l ih =>
    have hcons : number (b :: l) = l.foldl (fun acc b => 2 * acc + b.toNat) (2 * 0 + b.toNat) := rfl
    rw [hcons, List.foldl_cons, ih, ih, List.length_cons, Nat.pow_succ]
    ring

theorem number_append (l m : List Bool) : number (l ++ m) = number l * 2 ^ m.length + number m := by
  rw [number, List.foldl_append, foldl_number]
  rfl

theorem number_snoc (l : List Bool) (b : Bool) : number (l ++ [b]) = 2 * number l + b.toNat := by
  rw [number, List.foldl_append]
  rfl

theorem number_cons (b : Bool) (l : List Bool) : number (b :: l) = b.toNat * 2 ^ l.length + number l := by
  have happend := number_append [b] l
  rw [List.singleton_append] at happend
  rw [happend]
  congr 2
  cases b <;> rfl

theorem number_lt (l : List Bool) : number l < 2 ^ l.length := by
  induction l using List.reverseRecOn with
  | nil => exact Nat.one_pos
  | append_singleton l b ih =>
    have hb := Bool.toNat_lt b
    rw [number_snoc, List.length_append, List.length_singleton, Nat.pow_succ]
    omega

theorem number_zeros (n : Nat) : number (List.replicate n false) = 0 := by
  induction n with
  | zero => rfl
  | succ n ih => rw [List.replicate_succ, number_cons, ih, Bool.toNat_false, Nat.zero_mul]

theorem number_ones (n : Nat) : number (List.replicate n true) = 2 ^ n - 1 := by
  have hpos := Nat.two_pow_pos n
  induction n with
  | zero => rfl
  | succ n ih =>
    have := Nat.two_pow_pos n
    rw [List.replicate_succ, number_cons, ih this, List.length_replicate, Bool.toNat_true, Nat.pow_succ]
    omega

/-- Words of one length with the same number are the same. -/
theorem number_inj {l m : List Bool} (hlen : l.length = m.length) (hnum : number l = number m) : l = m := by
  induction l using List.reverseRecOn generalizing m with
  | nil => exact (List.length_eq_zero_iff.1 hlen.symm).symm
  | append_singleton l b ih =>
    rcases List.eq_nil_or_concat' m with rfl | ⟨m, c, rfl⟩
    · rw [List.length_append] at hlen
      cases hlen
    · rw [List.length_append, List.length_append, List.length_singleton, List.length_singleton] at hlen
      rw [number_snoc, number_snoc] at hnum
      have hb := Bool.toNat_lt b
      have hc := Bool.toNat_lt c
      have hbit : b.toNat = c.toNat := by omega
      have hbc : b = c := by cases b <;> cases c <;> first | rfl | cases hbit
      have hlm : l = m := ih (by omega) (by omega)
      rw [hlm, hbc]

/-- The word of a length with a number. -/
def word : Nat → Nat → List Bool
  | 0, _ => []
  | n + 1, k => word n (k / 2) ++ [decide (k % 2 = 1)]

theorem length_word (n k : Nat) : (word n k).length = n := by
  induction n generalizing k with
  | zero => rfl
  | succ n ih => rw [word, List.length_append, ih, List.length_singleton]

theorem number_word {n k : Nat} (hk : k < 2 ^ n) : number (word n k) = k := by
  induction n generalizing k with
  | zero => exact (Nat.lt_one_iff.1 hk).symm
  | succ n ih =>
    rw [Nat.pow_succ] at hk
    rw [word, number_snoc, ih (by omega)]
    rcases Nat.mod_two_eq_zero_or_one k with heven | hodd
    · rw [heven]
      exact (by omega : 2 * (k / 2) + 0 = k)
    · rw [hodd]
      exact (by omega : 2 * (k / 2) + 1 = k)

theorem word_number (l : List Bool) : word l.length (number l) = l :=
  number_inj (length_word _ _) (number_word (number_lt l))

/-- Changing a zero before ones to a one before zeros adds one. -/
theorem number_carry (l : List Bool) (n : Nat) :
    number (l ++ true :: List.replicate n false) = number (l ++ false :: List.replicate n true) + 1 := by
  have hpos := Nat.two_pow_pos n
  rw [number_append, number_append, number_cons, number_cons, number_zeros, number_ones, List.length_cons,
    List.length_cons, List.length_replicate, List.length_replicate, Bool.toNat_true, Bool.toNat_false]
  omega

theorem lt_iff_number_lt {l m : List Bool} (hlen : l.length = m.length) : l < m ↔ number l < number m := by
  induction l generalizing m with
  | nil =>
    obtain rfl := List.length_eq_zero_iff.1 hlen.symm
    exact iff_of_false (List.lt_irrefl _) (lt_irrefl _)
  | cons b l ih =>
    cases m with
    | nil => cases hlen
    | cons c m =>
      rw [List.length_cons, List.length_cons, Nat.succ_inj] at hlen
      have hl := number_lt l
      have hm := number_lt m
      rw [List.cons_lt_cons_iff, ih hlen, number_cons, number_cons, hlen]
      rw [hlen] at hl
      cases b <;> cases c
      case false.true => exact iff_of_true (.inl (by decide)) (by rw [Bool.toNat_false, Bool.toNat_true]; omega)
      case true.false =>
        refine iff_of_false (fun hlt => ?_) (by rw [Bool.toNat_false, Bool.toNat_true]; omega)
        rcases hlt with hlt | ⟨heq, -⟩
        · exact absurd hlt (by decide)
        · cases heq
      all_goals
        rw [Nat.add_lt_add_iff_left, or_iff_right (Bool.lt_irrefl _), and_iff_right rfl]

/-- The words that begin with a word are those of the numbers that it begins. -/
theorem word_append (l : List Bool) {k i : Nat} (hi : i < 2 ^ k) :
    word (l.length + k) (number l * 2 ^ k + i) = l ++ word k i := by
  have hbound := number_lt (l ++ word k i)
  have hnumber : number (l ++ word k i) = number l * 2 ^ k + i := by rw [number_append, length_word, number_word hi]
  rw [List.length_append, length_word, hnumber] at hbound
  refine number_inj ?_ ?_
  · rw [length_word, List.length_append, length_word]
  · rw [number_word hbound, hnumber]

end Mina.Binary
