/-
Signed integers of 64 bits, as integers whose operations wrap around, and the
conversions from and to unsigned ones. Division truncates toward zero and
raises when the divisor is zero.
-/
import Mina.Base.Currency
import Mina.Base.Exn

namespace Mina

/-- The signed integer of 64 bits with the same low bits. -/
def int64 (n : Int) : Int := n.bmod (2 ^ 64)

/-- The integers that fit. -/
def Fits64 (n : Int) : Prop := -2 ^ 63 ≤ n ∧ n < 2 ^ 63

theorem int64_of_fits {n : Int} (h : Fits64 n) : int64 n = n := by
  obtain ⟨hlo, hhi⟩ := h
  exact Int.bmod_eq_of_le (by simpa using hlo) (by simpa using hhi)

theorem int64_fits (n : Int) : Fits64 (int64 n) := by
  have hlo := @Int.le_bmod n (2 ^ 64) (by decide)
  have hhi := @Int.bmod_lt n (2 ^ 64) (by decide)
  rw [Fits64, int64]
  omega

theorem int64_eq_iff {n : Int} : int64 n = n ↔ Fits64 n :=
  ⟨fun h => h ▸ int64_fits n, int64_of_fits⟩

theorem int64_add_left (m n : Int) : int64 (int64 m + n) = int64 (m + n) := by simp [int64]

theorem int64_add_right (m n : Int) : int64 (m + int64 n) = int64 (m + n) := by simp [int64]

theorem int64_sub_left (m n : Int) : int64 (int64 m - n) = int64 (m - n) := by simp [int64]

theorem int64_sub_right (m n : Int) : int64 (m - int64 n) = int64 (m - n) := by simp [int64]

theorem int64_mul_left (m n : Int) : int64 (int64 m * n) = int64 (m * n) := by simp [int64]

namespace Int64

/-- `Int64.div`. -/
def div (m n : Int) : Exn Int := if n = 0 then .error "Division_by_zero" else .ok (int64 (m.tdiv n))

/-- `UInt64.of_int64`. -/
def toUInt64 (n : Int) : Fin (2 ^ 64) := Fin.ofNat (2 ^ 64) (n % 2 ^ 64).toNat

/-- `UInt64.to_int64`. -/
def ofUInt64 (n : Fin (2 ^ 64)) : Int := int64 n.val

/-- `UInt32.of_int64`. -/
def toUInt32 (n : Int) : Fin (2 ^ 32) := Fin.ofNat (2 ^ 32) (n % 2 ^ 32).toNat

theorem div_of_pos {m n : Int} (hm : 0 ≤ m) (hn : 0 < n) (hfits : m < 2 ^ 63) : div m n = .ok (m / n) := by
  have hle := Int.ediv_le_self n hm
  have hnonneg := Int.ediv_nonneg hm hn.le
  rw [div, if_neg hn.ne', Int.tdiv_eq_ediv_of_nonneg hm, int64_of_fits]
  rw [Fits64]
  omega

theorem toUInt64_int64 (n : Int) : toUInt64 (int64 n) = toUInt64 n := by
  rw [toUInt64, int64, toUInt64]
  congr 2
  exact Int.bmod_emod

theorem toUInt64_val (n : Int) : ((toUInt64 n).val : Int) = n % 2 ^ 64 := by
  have hnonneg := Int.emod_nonneg n (show (2 ^ 64 : Int) ≠ 0 by decide)
  have hlt := Int.emod_lt_of_pos n (show (0 : Int) < 2 ^ 64 by decide)
  rw [toUInt64, Fin.val_ofNat, Nat.mod_eq_of_lt (by omega)]
  omega

theorem toUInt64_of_fits {n : Int} (hn : 0 ≤ n) (hlt : n < 2 ^ 64) : ((toUInt64 n).val : Int) = n := by
  rw [toUInt64_val, Int.emod_eq_of_lt hn hlt]

theorem ofUInt64_of_fits {n : Fin (2 ^ 64)} (h : n.val < 2 ^ 63) : ofUInt64 n = n.val := by
  refine int64_of_fits ?_
  rw [Fits64]
  omega

theorem toUInt32_of_fits {n : Int} (hn : 0 ≤ n) (hlt : n < 2 ^ 32) : ((toUInt32 n).val : Int) = n := by
  rw [toUInt32, Fin.val_ofNat, Int.emod_eq_of_lt hn hlt, Nat.mod_eq_of_lt (by omega)]
  omega

end Int64

end Mina
