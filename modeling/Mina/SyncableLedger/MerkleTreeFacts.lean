/-
Facts about the ledger of the sync: the leaves of an address are those of its
children, the hash of an address is made of the children's and determines the
leaves, accounts set below an address change the leaves there only, and the
hash of a whole tree is that of its left part completed with empty subtrees.
-/
import Mina.SyncableLedger.SyncableLedger

namespace Mina.SyncableLedger

namespace Addr

theorem toInt_child (a : Addr) (dir : Direction) : toInt (a ++ [dir]) = 2 * toInt a + bit dir := by
  rw [toInt, List.foldl_append]
  rfl

theorem height_child (d : Nat) (a : Addr) (dir : Direction) : height d (a ++ [dir]) = height d a - 1 := by
  rw [height, height, depth, depth, List.length_append, List.length_singleton, Nat.sub_sub]

theorem height_pos {d : Nat} {a : Addr} (ha : a.length < d) : height d a = d - a.length - 1 + 1 := by
  rw [height, depth]
  omega

theorem first_left {d : Nat} {a : Addr} (ha : a.length < d) : first d (a ++ [.left]) = first d a := by
  rw [first, first, toInt_child, height_child, height_pos ha, Nat.add_sub_cancel, Nat.pow_succ, bit]
  ring

theorem first_right {d : Nat} {a : Addr} (ha : a.length < d) :
    first d (a ++ [.right]) = first d a + 2 ^ (d - a.length - 1) := by
  rw [first, first, toInt_child, height_child, height_pos ha, Nat.add_sub_cancel, Nat.pow_succ, bit]
  ring

theorem toInt_lt (a : Addr) : toInt a < 2 ^ a.length := by
  induction a using List.reverseRecOn with
  | nil => simp [toInt]
  | append_singleton a dir ih =>
    rw [toInt_child, List.length_append, List.length_singleton, Nat.pow_succ]
    cases dir <;> simp only [bit] <;> omega

theorem child_ok {d : Nat} {a : Addr} (ha : a.length < d) (dir : Direction) : child d a dir = .ok (a ++ [dir]) := by
  rw [child, isLeaf, depth, if_neg]
  simp only [ge_iff_le, decide_eq_true_eq]
  omega

theorem first_root (d : Nat) : first d root = 0 := by
  rw [first, root, toInt, List.foldl_nil, Nat.zero_mul]

theorem toInt_replicate_left (k : Nat) : toInt (List.replicate k .left) = 0 := by
  induction k with
  | zero => rfl
  | succ k ih => rw [List.replicate_succ', toInt_child, ih, bit]

end Addr

variable {Hash Account : Type} (P : Hashing Hash Account)

namespace MT

variable {t t' : MT Account}

/-! ## Hashes -/

theorem getInnerHashAtAddrExn_ok {a : Addr} (ha : a.length ≤ t.depth) :
    getInnerHashAtAddrExn P t a = .ok (hashAt P t a) := by
  rw [getInnerHashAtAddrExn, Addr.depth, decide_eq_true ha, Exn.assert_true]

theorem hashAt_children {a : Addr} (ha : a.length < t.depth) :
    hashAt P t a =
      P.merge (t.depth - a.length - 1) (hashAt P t (a ++ [.left])) (hashAt P t (a ++ [.right])) := by
  rw [hashAt, hashAt, hashAt, Addr.height_child, Addr.height_child, Addr.first_left ha, Addr.first_right ha,
    Addr.height_pos ha, Nat.add_sub_cancel, Merkle.root]
  congr 2
  funext i
  rw [Merkle.rightHalf_apply]
  congr 1
  ring

/-- The leaves of an address. -/
def SameBelow (t t' : MT Account) (a : Addr) : Prop :=
  ∀ i < 2 ^ Addr.height t.depth a, t.get (Addr.first t.depth a + i) = t'.get (Addr.first t.depth a + i)

theorem hashAt_congr (hd : t.depth = t'.depth) {a : Addr} (h : SameBelow t t' a) : hashAt P t a = hashAt P t' a := by
  rw [hashAt, hashAt, ← hd]
  exact Merkle.root_congr _ _ h

/-! ## Setting accounts -/

theorem foldl_update {A : Type} (accounts : List A) : ∀ (s : Nat) (get : Nat → Option A) (j : Nat),
    ((List.range' s accounts.length).zip accounts).foldl (fun (get : Nat → Option A) p => Function.update get p.1 (some p.2)) get j =
      if s ≤ j ∧ j < s + accounts.length then accounts[j - s]? else get j := by
  induction accounts with
  | nil =>
    intro s get j
    rw [if_neg (by simp only [List.length_nil]; omega)]
    rfl
  | cons a accounts ih =>
    intro s get j
    rw [List.length_cons, List.range'_succ, List.zip_cons_cons, List.foldl_cons, ih]
    by_cases hj : j = s
    · subst hj
      rw [if_neg (by omega), if_pos (by omega), Function.update_self, Nat.sub_self]
      rfl
    · by_cases hin : s + 1 ≤ j ∧ j < s + 1 + accounts.length
      · rw [if_pos hin, if_pos (by omega), show j - s = j - (s + 1) + 1 by omega, List.getElem?_cons_succ]
      · rw [if_neg hin, if_neg (by omega), Function.update_of_ne hj]

/-- What setting the accounts below an address does. -/
structure SetBelow (t : MT Account) (a : Addr) (accounts : List Account) (t' : MT Account) : Prop where
  depth : t'.depth = t.depth
  get : ∀ j, t'.get j = if Addr.first t.depth a ≤ j ∧ j < Addr.first t.depth a + accounts.length
    then accounts[j - Addr.first t.depth a]? else t.get j

theorem setAllAccountsRootedAtExn_ok {a : Addr} (ha : a.length ≤ t.depth) {l : List Account}
    (hlen : l.length ≤ 2 ^ Addr.height t.depth a) :
    ∃ t', setAllAccountsRootedAtExn t a l = .ok t' ∧ SetBelow t a l t' := by
  have htake : (Addr.subtreeRange t.depth a).take l.length =
      List.range' (Addr.first t.depth a) l.length := List.take_range'_of_length_ge hlen
  refine ⟨setBatchAccounts t ((List.range' (Addr.first t.depth a) l.length).zip l), ?_, rfl, fun j => ?_⟩
  · rw [setAllAccountsRootedAtExn, Addr.depth, decide_eq_true ha, Exn.assert_true, htake,
      if_pos (List.length_range' ..)]
  · exact foldl_update l _ _ j

end MT

/-! ## Completing with empty subtrees -/

theorem emptyHashAtHeight_eq (h : Nat) : emptyHashAtHeight P h = Merkle.root P.merge P.slot h fun _ => none := by
  induction h with
  | zero => rfl
  | succ h ih => rw [emptyHashAtHeight, Merkle.root_const_succ, ih]

theorem completeGo_eq (get : Nat → Option Account) : ∀ (k h : Nat),
    (∀ i, 2 ^ h ≤ i → i < 2 ^ (h + k) → get i = none) →
    completeGo P (emptyHashAtHeight P h) (Merkle.root P.merge P.slot h get) h k = Merkle.root P.merge P.slot (h + k) get
  | 0, h, _ => rfl
  | k + 1, h, hnone => by
    have hpow := Nat.pow_succ (n := 2) (m := h)
    have hle : 2 ^ (h + 1) ≤ 2 ^ (h + (k + 1)) := Nat.pow_le_pow_right (by omega) (by omega)
    have hright : Merkle.root P.merge P.slot h (Merkle.rightHalf h get) = emptyHashAtHeight P h := by
      rw [emptyHashAtHeight_eq]
      refine Merkle.root_congr _ _ fun i hi => hnone _ ?_ ?_ <;> omega
    have ih := completeGo_eq get k (h + 1) fun i hi hi' => hnone i (by omega) (by
      rw [show h + (k + 1) = h + 1 + k by omega]
      exact hi')
    rw [show h + (k + 1) = h + 1 + k by omega, ← ih, completeGo]
    congr 1
    rw [Merkle.root, hright]

end Mina.SyncableLedger
