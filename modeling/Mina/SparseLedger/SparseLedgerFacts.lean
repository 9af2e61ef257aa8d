/-
What the sparse ledger's functions compute on the partial view of a complete
tree.

`Summary h f t`: `t` is a view of the complete tree of height `h` with leaves
`f`, with any of its subtrees given by their hashes alone. `Opened h t p`: the
leaf at `p` is known. Adding the path of a leaf opens it and nothing else
changes; a leaf that is open can be read and written, and writing it gives a
view of the tree with the new leaf.
-/
import Mina.SparseLedger.SparseLedger
import Mina.Merkle.CompleteTree

namespace Mina.SparseLedger

open Merkle

variable {Hash Key Account TokenId : Type} (P : Params Hash Account TokenId)

/-- The root hash of the complete tree of height `h` with leaves `f`. -/
def rootOf (h : Nat) (f : Nat → Account) : Hash := Merkle.root (fun k => P.merge k) P.dataHash h f

@[simp] theorem rootOf_zero (f : Nat → Account) : rootOf P 0 f = P.dataHash (f 0) := rfl

theorem rootOf_succ (h : Nat) (f : Nat → Account) :
    rootOf P (h + 1) f = P.merge h (rootOf P h f) (rootOf P h (rightHalf h f)) := rfl

theorem rootOf_congr {h : Nat} {f g : Nat → Account} (hfg : ∀ i < 2 ^ h, f i = g i) : rootOf P h f = rootOf P h g :=
  root_congr _ _ hfg

/-! ## Bits and heights -/

theorem height_succ (h : Nat) : ((h + 1 : Nat) : Int) - 1 = h := by omega

theorem ithBit_iff (idx h : Nat) : ithBit idx (h : Int) = true ↔ idx / 2 ^ h % 2 = 1 := by
  rw [ithBit, Int.toNat_natCast, Nat.shiftRight_eq_div_pow, Nat.and_one_is_mod, decide_eq_true_iff]

/-! ## Views of a complete tree -/

/-- The tree of height `h` with leaves `f`, all of it known. -/
def complete : Nat → (Nat → Account) → Tree Hash Account
  | 0, f => .account (f 0)
  | h + 1, f => .node (rootOf P (h + 1) f) (complete h f) (complete h (rightHalf h f))

@[simp] theorem hash_complete (h : Nat) (f : Nat → Account) : hash P (complete P h f) = rootOf P h f := by
  cases h <;> rfl

theorem complete_congr : ∀ {h : Nat} {f g : Nat → Account}, (∀ i < 2 ^ h, f i = g i) →
    complete P h f = complete P h g
  | 0, f, g, hfg => by rw [complete, complete, hfg 0 (by simp)]
  | h + 1, f, g, hfg => by
    have hpow := Nat.pow_succ (n := 2) (m := h)
    rw [complete, complete, rootOf_congr P hfg, complete_congr fun i hi => hfg i (by omega),
      complete_congr (f := rightHalf h f) (g := rightHalf h g) fun i hi => hfg (i + 2 ^ h) (by omega)]

inductive Summary : Nat → (Nat → Account) → Tree Hash Account → Prop
  | account (f) : Summary 0 f (.account (f 0))
  | hash (h f) : Summary h f (.hash (rootOf P h f))
  | node {h f l r} : Summary h f l → Summary h (rightHalf h f) r →
    Summary (h + 1) f (.node (rootOf P (h + 1) f) l r)

theorem Summary.hash_eq {h : Nat} {f : Nat → Account} {t : Tree Hash Account} (hs : Summary P h f t) :
    SparseLedger.hash P t = rootOf P h f := by
  cases hs <;> rfl

/-- The leaf at `p` is known. -/
def Opened : Nat → Tree Hash Account → Nat → Prop
  | 0, .account _, _ => True
  | h + 1, .node _ l r, p => if p < 2 ^ h then Opened h l p else Opened h r (p - 2 ^ h)
  | _, _, _ => False

theorem opened_complete : ∀ (h : Nat) (f : Nat → Account) (p : Nat), Opened h (complete P h f) p
  | 0, _, _ => trivial
  | h + 1, f, p => by
    rw [complete, Opened]
    split
    · exact opened_complete h f p
    · exact opened_complete h (rightHalf h f) (p - 2 ^ h)

/-- A view with every leaf open is the complete tree. -/
theorem Summary.eq_complete {h : Nat} {f : Nat → Account} {t : Tree Hash Account} (hs : Summary P h f t)
    (ho : ∀ p < 2 ^ h, Opened h t p) : t = complete P h f := by
  induction hs with
  | account f => rfl
  | hash h f =>
    have h0 := ho 0 (Nat.two_pow_pos h)
    cases h <;> exact h0.elim
  | @node h f l r hl hr ihl ihr =>
    have hpow := Nat.pow_succ (n := 2) (m := h)
    have hleft : ∀ p < 2 ^ h, Opened h l p := by
      intro p hp
      have := ho p (by omega)
      rwa [Opened, if_pos hp] at this
    have hright : ∀ p < 2 ^ h, Opened h r p := by
      intro p hp
      have := ho (p + 2 ^ h) (by omega)
      rwa [Opened, if_neg (by omega), Nat.add_sub_cancel] at this
    rw [complete, ← ihl hleft, ← ihr hright]

/-! ## The path of a leaf -/

/-- The path from the root to the leaf at `p`. -/
def pathTo : Nat → (Nat → Account) → Nat → List (Step Hash)
  | 0, _, _ => []
  | h + 1, f, p =>
    if p < 2 ^ h then .left (rootOf P h (rightHalf h f)) :: pathTo h f p
    else .right (rootOf P h f) :: pathTo h (rightHalf h f) (p - 2 ^ h)

@[simp] theorem length_pathTo : ∀ (h : Nat) (f : Nat → Account) (p : Nat), (pathTo P h f p).length = h
  | 0, _, _ => rfl
  | h + 1, f, p => by
    rw [pathTo]
    split <;> rw [List.length_cons, length_pathTo]

theorem pathIndex_append (path path' : List (Step Hash)) : ∀ i acc : Nat,
    pathIndex i acc (path ++ path') = pathIndex (i + path.length) (pathIndex i acc path) path' := by
  induction path with
  | nil => intro i acc; rfl
  | cons step path ih =>
    intro i acc
    cases step <;>
      simp only [List.cons_append, pathIndex, ih, List.length_cons] <;>
      rw [show i + 1 + path.length = i + (path.length + 1) by omega]

theorem pathIndex_pathTo : ∀ {h : Nat} (f : Nat → Account) {p : Nat}, p < 2 ^ h →
    pathIndex 0 0 (pathTo P h f p).reverse = p
  | 0, f, p, hp => by
    rw [Nat.pow_zero, Nat.lt_one_iff] at hp
    rw [hp]
    rfl
  | h + 1, f, p, hp => by
    have hpow := Nat.pow_succ (n := 2) (m := h)
    rw [pathTo]
    split
    next hlt =>
      rw [List.reverse_cons, pathIndex_append, pathIndex_pathTo f hlt]
      rfl
    next hge =>
      rw [List.reverse_cons, pathIndex_append, pathIndex_pathTo (rightHalf h f) (by omega), List.length_reverse,
        length_pathTo, pathIndex, pathIndex, Nat.zero_add, Nat.one_shiftLeft]
      omega

/-- The path of an honest leaf is built into a view in which it is open. -/
theorem buildTree_pathTo : ∀ {h : Nat} (f : Nat → Account) {p : Nat}, p < 2 ^ h →
    ∃ t, buildTree P (f p) ((h : Int) - 1) (pathTo P h f p) = .ok t ∧ Summary P h f t ∧ Opened h t p
  | 0, f, p, hp => by
    rw [Nat.pow_zero, Nat.lt_one_iff] at hp
    subst hp
    exact ⟨.account (f 0), rfl, Summary.account f, trivial⟩
  | h + 1, f, p, hp => by
    have hpow := Nat.pow_succ (n := 2) (m := h)
    rw [pathTo, height_succ]
    split
    next hlt =>
      obtain ⟨t, ht, hs, ho⟩ := buildTree_pathTo f hlt
      refine ⟨_, by rw [buildTree, ht]; rfl, ?_, ?_⟩
      · rw [hs.hash_eq, ← rootOf_succ]
        exact .node hs (.hash h _)
      · rw [Opened, if_pos hlt]
        exact ho
    next hge =>
      obtain ⟨t, ht, hs, ho⟩ := buildTree_pathTo (h := h) (rightHalf h f) (p := p - 2 ^ h) (by omega)
      rw [rightHalf_apply, Nat.sub_add_cancel (by omega)] at ht
      refine ⟨_, by rw [buildTree, ht]; rfl, ?_, ?_⟩
      · rw [hs.hash_eq, ← rootOf_succ]
        exact .node (.hash h _) hs
      · rw [Opened, if_neg hge]
        exact ho

section Union

variable [DecidableEq Hash] [DecidableEq Account]

/-- The path of an honest leaf opens it in any view of the tree, and what was
open stays open. -/
theorem union_pathTo {h : Nat} {f : Nat → Account} {t : Tree Hash Account} (hs : Summary P h f t) :
    ∀ {p : Nat}, p < 2 ^ h →
      ∃ t', union P (f p) ((h : Int) - 1) t (pathTo P h f p) = .ok t' ∧ Summary P h f t' ∧ Opened h t' p ∧
        ∀ q, Opened h t q → Opened h t' q := by
  induction hs with
  | account f =>
    intro p hp
    rw [Nat.pow_zero, Nat.lt_one_iff] at hp
    subst hp
    refine ⟨.account (f 0), ?_, Summary.account f, trivial, fun q hq => hq⟩
    rw [pathTo, union, decide_eq_true rfl, Exn.assert_true]
  | hash h f =>
    intro p hp
    obtain ⟨t', ht', hs', ho'⟩ := buildTree_pathTo P f hp
    refine ⟨t', ?_, hs', ho', fun q hq => ?_⟩
    · rw [union, ht', Exn.andThen_ok, if_pos hs'.hash_eq.symm]
    · cases h <;> exact hq.elim
  | @node h f l r hl hr ihl ihr =>
    intro p hp
    have hpow := Nat.pow_succ (n := 2) (m := h)
    rw [pathTo, height_succ]
    split
    next hlt =>
      obtain ⟨l', hl', hs', ho', hkeep⟩ := ihl hlt
      refine ⟨.node (rootOf P (h + 1) f) l' r, ?_, .node hs' hr, ?_, fun q hq => ?_⟩
      · rw [union, hr.hash_eq, decide_eq_true rfl, Exn.assert_true, hl', Exn.andThen_ok]
      · rw [Opened, if_pos hlt]
        exact ho'
      · rw [Opened] at hq ⊢
        split
        next hq' => exact hkeep q (by rwa [if_pos hq'] at hq)
        next hq' => rwa [if_neg hq'] at hq
    next hge =>
      obtain ⟨r', hr', hs', ho', hkeep⟩ := ihr (p := p - 2 ^ h) (by omega)
      rw [rightHalf_apply, Nat.sub_add_cancel (by omega)] at hr'
      refine ⟨.node (rootOf P (h + 1) f) l r', ?_, .node hl hs', ?_, fun q hq => ?_⟩
      · rw [union, hl.hash_eq, decide_eq_true rfl, Exn.assert_true, hr', Exn.andThen_ok]
      · rw [Opened, if_neg hge]
        exact ho'
      · rw [Opened] at hq ⊢
        split
        next hq' => rwa [if_pos hq'] at hq
        next hq' => exact hkeep _ (by rwa [if_neg hq'] at hq)

end Union

/-! ## Reading and writing a complete tree -/

theorem half_of_index {h idx : Nat} (hbit : ¬ idx / 2 ^ h % 2 = 1) : idx % 2 ^ (h + 1) = idx % 2 ^ h :=
  mod_succ_left (by omega)

theorem getGo_complete (depth idx : Nat) : ∀ (h : Nat) (f : Nat → Account),
    getGo depth idx ((h : Int) - 1) (complete P h f) = .ok (f (idx % 2 ^ h))
  | 0, f => by
    rw [complete, getGo, if_pos (by omega), Nat.pow_zero, Nat.mod_one]
  | h + 1, f => by
    rw [height_succ, complete, getGo, if_neg (by omega)]
    split
    next hbit =>
      rw [getGo_complete depth idx h, rightHalf_apply, mod_succ_right ((ithBit_iff idx h).1 hbit)]
    next hbit =>
      rw [ithBit_iff] at hbit
      rw [getGo_complete depth idx h, half_of_index hbit]

theorem setGo_complete (depth idx : Nat) (a : Account) : ∀ (h : Nat) (f : Nat → Account),
    setGo P depth idx a ((h : Int) - 1) (complete P h f) =
      .ok (complete P h (Function.update f (idx % 2 ^ h) a))
  | 0, f => by
    rw [complete, setGo, if_pos (by omega), Nat.pow_zero, Nat.mod_one, complete, Function.update_self]
  | h + 1, f => by
    rw [height_succ, complete, setGo, if_neg (by omega), complete, rootOf_succ]
    have hlt := Nat.mod_lt idx (Nat.two_pow_pos h)
    split
    next hbit =>
      rw [ithBit_iff] at hbit
      rw [setGo_complete depth idx a h, Exn.andThen_ok, hash_complete, hash_complete, mod_succ_right hbit,
        rightHalf_update_right,
        complete_congr P (f := Function.update f _ a) fun i hi => update_of_lt f a hi (idx % 2 ^ h),
        rootOf_congr P (f := Function.update f _ a) fun i hi => update_of_lt f a hi (idx % 2 ^ h)]
    next hbit =>
      rw [ithBit_iff] at hbit
      rw [setGo_complete depth idx a h, Exn.andThen_ok, hash_complete, hash_complete, half_of_index hbit,
        rightHalf_update_left hlt]

theorem pathGo_complete (idx : Nat) : ∀ (h : Nat) (f : Nat → Account) (acc : List (Step Hash)),
    pathGo P idx acc ((h : Int) - 1) (complete P h f) = .ok ((pathTo P h f (idx % 2 ^ h)).reverse ++ acc)
  | 0, f, acc => by
    rw [complete, pathGo, if_pos (by omega)]
    rfl
  | h + 1, f, acc => by
    have hlt := Nat.mod_lt idx (Nat.two_pow_pos h)
    rw [height_succ, complete, pathGo, if_neg (by omega), pathTo]
    split
    next hbit =>
      rw [ithBit_iff] at hbit
      rw [pathGo_complete idx h, hash_complete, mod_succ_right hbit, if_neg (by omega), Nat.add_sub_cancel,
        List.reverse_cons, List.append_assoc, List.singleton_append]
    next hbit =>
      rw [ithBit_iff] at hbit
      rw [pathGo_complete idx h, hash_complete, half_of_index hbit, if_pos hlt, List.reverse_cons,
        List.append_assoc, List.singleton_append]

end Mina.SparseLedger
