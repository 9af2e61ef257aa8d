/-
Complete binary Merkle trees over a function of the leaves.

A tree of height `h` has its leaves at the positions below `2 ^ h`, from left
to right; the nodes of one level are hashed with a function of their own
(`node k` for the nodes over subtrees of height `k`). A leaf is reached from
the root by the bits of its position, the highest one first. `bitReverse`
gives the position a number reaches when its lowest bit is read first.
-/
import Mathlib

namespace Mina.Merkle

variable {A H : Type}

/-! ## Halves of a tree -/

/-- The leaves of the right half of a tree of height `h + 1`. -/
def rightHalf (h : Nat) (f : Nat → A) : Nat → A := fun i => f (i + 2 ^ h)

theorem rightHalf_apply (h : Nat) (f : Nat → A) (i : Nat) : rightHalf h f i = f (i + 2 ^ h) := rfl

@[simp] theorem rightHalf_const (h : Nat) (a : A) : rightHalf h (fun _ => a) = fun _ => a := rfl

theorem update_of_lt {h i : Nat} (f : Nat → A) (a : A) (hi : i < 2 ^ h) (j : Nat) :
    Function.update f (j + 2 ^ h) a i = f i := by
  refine Function.update_of_ne ?_ a f
  omega

theorem rightHalf_update_right (h j : Nat) (f : Nat → A) (a : A) :
    rightHalf h (Function.update f (j + 2 ^ h) a) = Function.update (rightHalf h f) j a := by
  funext i
  simp only [rightHalf, Function.update_apply, Nat.add_right_cancel_iff]

theorem rightHalf_update_left {h j : Nat} (hj : j < 2 ^ h) (f : Nat → A) (a : A) :
    rightHalf h (Function.update f j a) = rightHalf h f := by
  funext i
  refine Function.update_of_ne ?_ a f
  omega

/-- The position of a leaf in a tree of height `h + 1`: its half and its
position there. -/
theorem mod_succ_left {h i : Nat} (hi : i / 2 ^ h % 2 = 0) : i % 2 ^ (h + 1) = i % 2 ^ h := by
  rw [Nat.mod_pow_succ, hi, Nat.mul_zero, Nat.add_zero]

theorem mod_succ_right {h i : Nat} (hi : i / 2 ^ h % 2 = 1) : i % 2 ^ (h + 1) = i % 2 ^ h + 2 ^ h := by
  rw [Nat.mod_pow_succ, hi, Nat.mul_one]

/-! ## The root -/

section Root

variable (node : Nat → H → H → H) (leaf : A → H)

/-- The root hash of the tree of height `h` with leaves `f`. -/
def root : Nat → (Nat → A) → H
  | 0, f => leaf (f 0)
  | h + 1, f => node h (root h f) (root h (rightHalf h f))

theorem root_congr : ∀ {h : Nat} {f g : Nat → A}, (∀ i < 2 ^ h, f i = g i) →
    root node leaf h f = root node leaf h g
  | 0, f, g, hfg => by rw [root, root, hfg 0 (by simp)]
  | h + 1, f, g, hfg => by
    have hpow := Nat.pow_succ (n := 2) (m := h)
    rw [root, root, root_congr fun i hi => hfg i (by omega),
      root_congr (f := rightHalf h f) (g := rightHalf h g) fun i hi => hfg (i + 2 ^ h) (by omega)]

theorem root_const_succ (h : Nat) (a : A) :
    root node leaf (h + 1) (fun _ => a) =
      node h (root node leaf h fun _ => a) (root node leaf h fun _ => a) := rfl

/-- If the hash functions are injective, the root determines the leaves. -/
theorem root_injective (hnode : ∀ h a b a' b', node h a b = node h a' b' → a = a' ∧ b = b')
    (hleaf : Function.Injective leaf) : ∀ {h : Nat} {f g : Nat → A}, root node leaf h f = root node leaf h g →
    ∀ i < 2 ^ h, f i = g i
  | 0, f, g, hfg, i, hi => by
    obtain rfl : i = 0 := by omega
    exact hleaf hfg
  | h + 1, f, g, hfg, i, hi => by
    obtain ⟨hl, hr⟩ := hnode _ _ _ _ _ hfg
    have hpow := Nat.pow_succ (n := 2) (m := h)
    by_cases hlt : i < 2 ^ h
    · exact root_injective hnode hleaf hl i hlt
    · have hright := root_injective hnode hleaf hr (i - 2 ^ h) (by omega)
      rw [rightHalf_apply, rightHalf_apply, Nat.sub_add_cancel (by omega)] at hright
      exact hright

end Root

/-! ## Reading the bits of a position in the other order -/

/-- The `d` lowest bits of a number, in the other order. -/
def bitReverse : Nat → Nat → Nat
  | 0, _ => 0
  | d + 1, k => k % 2 * 2 ^ d + bitReverse d (k / 2)

theorem bitReverse_lt : ∀ d k : Nat, bitReverse d k < 2 ^ d
  | 0, _ => by simp [bitReverse]
  | d + 1, k => by
    have ih := bitReverse_lt d (k / 2)
    have hpow := Nat.pow_succ (n := 2) (m := d)
    rw [bitReverse]
    rcases Nat.mod_two_eq_zero_or_one k with hk | hk <;> rw [hk] <;> omega

theorem bitReverse_injective : ∀ {d k l : Nat}, k < 2 ^ d → l < 2 ^ d → bitReverse d k = bitReverse d l → k = l
  | 0, k, l, hk, hl, _ => by
    rw [Nat.pow_zero] at hk hl
    omega
  | d + 1, k, l, hk, hl, h => by
    have hpow := Nat.pow_succ (n := 2) (m := d)
    have hlt := bitReverse_lt d (k / 2)
    have hlt' := bitReverse_lt d (l / 2)
    rw [bitReverse, bitReverse] at h
    have hbits : k % 2 = l % 2 ∧ bitReverse d (k / 2) = bitReverse d (l / 2) := by
      rcases Nat.mod_two_eq_zero_or_one k with hk2 | hk2 <;>
        rcases Nat.mod_two_eq_zero_or_one l with hl2 | hl2 <;>
        rw [hk2, hl2] at h ⊢ <;> omega
    have hhalf := bitReverse_injective (by omega) (by omega) hbits.2
    omega

/-- Every position is reached: the numbers below `2 ^ d` are as many. -/
theorem bitReverse_surjective {d p : Nat} (hp : p < 2 ^ d) : ∃ k < 2 ^ d, bitReverse d k = p := by
  have hinj : Function.Injective fun k : Fin (2 ^ d) => (⟨bitReverse d k, bitReverse_lt d k⟩ : Fin (2 ^ d)) := by
    intro k l hkl
    exact Fin.ext (bitReverse_injective k.isLt l.isLt (Fin.ext_iff.1 hkl))
  obtain ⟨k, hk⟩ := Finite.surjective_of_injective hinj ⟨p, hp⟩
  exact ⟨k, k.isLt, Fin.ext_iff.1 hk⟩

end Mina.Merkle
