/-
A sparse ledger is a view of the full tree it was made from. The run starts
with the hash of the root; a step adds the path of a leaf, or sets a leaf
whose path was added, in the sparse ledger and in the full tree. `Faithful`
is what every step preserves, and all that can be read off a sparse ledger
follows from it: its root, the hashes in its nodes, the accounts and the
paths of the added leaves.

The full tree is a function of the positions of its leaves; its root and its
paths are `rootOf` and `pathTo`.
-/
import Mina.SparseLedger.SparseLedgerFacts

namespace Mina.SparseLedger

open Merkle

variable {Hash Key Account TokenId : Type} (P : Params Hash Account TokenId)

/-! ## Reading and writing a view -/

theorem Summary.congr {h : Nat} {f : Nat → Account} {t : Tree Hash Account} (hs : Summary P h f t) :
    ∀ {g : Nat → Account}, (∀ i < 2 ^ h, f i = g i) → Summary P h g t := by
  induction hs with
  | account f =>
    intro g hfg
    rw [hfg 0 (by simp)]
    exact .account g
  | hash h f =>
    intro g hfg
    rw [rootOf_congr P hfg]
    exact .hash h g
  | @node h f l r _ _ ihl ihr =>
    intro g hfg
    have hpow := Nat.pow_succ (n := 2) (m := h)
    rw [rootOf_congr P hfg]
    exact .node (ihl fun i hi => hfg i (by omega)) (ihr fun i hi => hfg (i + 2 ^ h) (by omega))

theorem opened_node {h p : Nat} {k : Hash} {l r : Tree Hash Account} :
    Opened (h + 1) (.node k l r) p ↔ if p < 2 ^ h then Opened h l p else Opened h r (p - 2 ^ h) := Iff.rfl

theorem not_opened_hash {h p : Nat} {k : Hash} : ¬ Opened h (.hash k : Tree Hash Account) p := by
  cases h <;> exact id

/-- The bit of a height leads into the half the position is in. -/
theorem opened_bit {h idx : Nat} {k : Hash} {l r : Tree Hash Account} :
    Opened (h + 1) (.node k l r) (idx % 2 ^ (h + 1)) ↔
      if ithBit idx (h : Int) = true then Opened h r (idx % 2 ^ h) else Opened h l (idx % 2 ^ h) := by
  have hlt := Nat.mod_lt idx (Nat.two_pow_pos h)
  rw [opened_node]
  by_cases hbit : ithBit idx (h : Int) = true
  · rw [if_pos hbit, mod_succ_right ((ithBit_iff idx h).1 hbit), if_neg (by omega), Nat.add_sub_cancel]
  · rw [if_neg hbit, half_of_index fun hone => hbit ((ithBit_iff idx h).2 hone), if_pos hlt]

/-- A leaf can be read exactly when it is open. -/
theorem getGo_eq_ok (depth idx : Nat) {h : Nat} {f : Nat → Account} {t : Tree Hash Account} (hs : Summary P h f t)
    {a : Account} :
    getGo depth idx ((h : Int) - 1) t = .ok a ↔ Opened h t (idx % 2 ^ h) ∧ f (idx % 2 ^ h) = a := by
  induction hs with
  | account f =>
    rw [getGo, if_pos (by omega), Nat.pow_zero, Nat.mod_one, Except.ok.injEq]
    exact (and_iff_right trivial).symm
  | hash h f =>
    rw [getGo]
    exact ⟨fun h => (by cases h), fun h => absurd h.1 not_opened_hash⟩
  | @node h f l r _ _ ihl ihr =>
    rw [height_succ, getGo, if_neg (by omega), opened_bit]
    split
    next hbit => rw [ihr, rightHalf_apply, mod_succ_right ((ithBit_iff idx h).1 hbit)]
    next hbit => rw [ihl, half_of_index fun hone => hbit ((ithBit_iff idx h).2 hone)]

/-- An open leaf can be set: the tree is a view of the new leaves, with the
same leaves open. -/
theorem setGo_ok (depth idx : Nat) (a : Account) {h : Nat} {f : Nat → Account} {t : Tree Hash Account}
    (hs : Summary P h f t) (ho : Opened h t (idx % 2 ^ h)) :
    ∃ t', setGo P depth idx a ((h : Int) - 1) t = .ok t' ∧ Summary P h (Function.update f (idx % 2 ^ h) a) t' ∧
      ∀ q, Opened h t' q ↔ Opened h t q := by
  induction hs with
  | account f =>
    refine ⟨.account a, by rw [setGo, if_pos (by omega)], ?_, fun q => Iff.rfl⟩
    have hview := Summary.account (P := P) (Function.update f 0 a)
    rw [Function.update_self] at hview
    rwa [Nat.pow_zero, Nat.mod_one]
  | hash h f => exact absurd ho not_opened_hash
  | @node h f l r hl hr ihl ihr =>
    rw [opened_bit] at ho
    rw [height_succ, setGo, if_neg (by omega)]
    split
    next hbit =>
      rw [if_pos hbit] at ho
      obtain ⟨r', hr', hs', ho'⟩ := ihr ho
      have hview : Summary P h (Function.update f (idx % 2 ^ (h + 1)) a) l := by
        rw [mod_succ_right ((ithBit_iff idx h).1 hbit)]
        exact hl.congr P fun i hi => (update_of_lt f a hi (idx % 2 ^ h)).symm
      have hview' : Summary P h (rightHalf h (Function.update f (idx % 2 ^ (h + 1)) a)) r' := by
        rwa [mod_succ_right ((ithBit_iff idx h).1 hbit), rightHalf_update_right]
      refine ⟨_, by rw [hr', Exn.andThen_ok], ?_, fun q => ?_⟩
      · rw [hview.hash_eq, hview'.hash_eq, ← rootOf_succ]
        exact .node hview hview'
      · rw [opened_node, opened_node, ho']
    next hbit =>
      rw [if_neg hbit] at ho
      obtain ⟨l', hl', hs', ho'⟩ := ihl ho
      have hhalf := half_of_index fun hone => hbit ((ithBit_iff idx h).2 hone)
      have hview : Summary P h (Function.update f (idx % 2 ^ (h + 1)) a) l' := by rwa [hhalf]
      have hview' : Summary P h (rightHalf h (Function.update f (idx % 2 ^ (h + 1)) a)) r := by
        rwa [hhalf, rightHalf_update_left (Nat.mod_lt idx (Nat.two_pow_pos h))]
      refine ⟨_, by rw [hl', Exn.andThen_ok], ?_, fun q => ?_⟩
      · rw [hview.hash_eq, hview'.hash_eq, ← rootOf_succ]
        exact .node hview hview'
      · rw [opened_node, opened_node, ho']

theorem pathGo_ok (idx : Nat) {h : Nat} {f : Nat → Account} {t : Tree Hash Account} (hs : Summary P h f t)
    (ho : Opened h t (idx % 2 ^ h)) : ∀ acc : List (Step Hash),
    pathGo P idx acc ((h : Int) - 1) t = .ok ((pathTo P h f (idx % 2 ^ h)).reverse ++ acc) := by
  induction hs with
  | account f =>
    intro acc
    rw [pathGo, if_pos (by omega)]
    rfl
  | hash h f => exact absurd ho not_opened_hash
  | @node h f l r hl hr ihl ihr =>
    intro acc
    have hlt := Nat.mod_lt idx (Nat.two_pow_pos h)
    rw [opened_bit] at ho
    rw [height_succ, pathGo, if_neg (by omega), pathTo]
    split
    next hbit =>
      rw [if_pos hbit] at ho
      rw [ihr ho, hl.hash_eq, mod_succ_right ((ithBit_iff idx h).1 hbit), if_neg (by omega), Nat.add_sub_cancel,
        List.reverse_cons, List.append_assoc, List.singleton_append]
    next hbit =>
      rw [if_neg hbit] at ho
      rw [ihl ho, hr.hash_eq, half_of_index fun hone => hbit ((ithBit_iff idx h).2 hone), if_pos hlt,
        List.reverse_cons, List.append_assoc, List.singleton_append]

/-- Every node holds the merge, at its height, of the hashes of its
children. -/
def Hashed : Int → Tree Hash Account → Prop
  | i, .node h l r => h = P.merge i (hash P l) (hash P r) ∧ Hashed (i - 1) l ∧ Hashed (i - 1) r
  | _, _ => True

theorem Summary.hashed {h : Nat} {f : Nat → Account} {t : Tree Hash Account} (hs : Summary P h f t) :
    Hashed P ((h : Int) - 1) t := by
  induction hs with
  | account f => trivial
  | hash h f => trivial
  | @node h f l r hl hr ihl ihr =>
    rw [height_succ]
    exact ⟨by rw [hl.hash_eq, hr.hash_eq, rootOf_succ], ihl, ihr⟩

/-! ## Runs -/

/-- The Merkle path of a leaf, from the leaf to the root. -/
def merklePath (depth : Nat) (f : Nat → Account) (i : Nat) : List (Step Hash) := (pathTo P depth f i).reverse

section Run

variable [DecidableEq Hash] [DecidableEq Account]

/-- The runs of a sparse ledger beside the full tree. A step adds the true
path and account of a leaf, or sets a leaf that was added. -/
inductive Run (depth : Nat) (nextAvailableToken : TokenId) (f₀ : Nat → Account) :
    T Hash Key Account TokenId → (Nat → Account) → Prop
  | ofHash : Run depth nextAvailableToken f₀ (ofHash depth nextAvailableToken (rootOf P depth f₀)) f₀
  | addPath {t f t'} (i : Nat) (key : Key) : Run depth nextAvailableToken f₀ t f → i < 2 ^ depth →
    addPath P t (merklePath P depth f i) key (f i) = .ok t' → Run depth nextAvailableToken f₀ t' f
  | setExn {t f t'} (i : Nat) (a : Account) : Run depth nextAvailableToken f₀ t f →
    i ∈ t.indexes.map (·.2) → setExn P t i a = .ok t' →
    Run depth nextAvailableToken f₀ t' (Function.update f i a)

end Run

/-- The sparse ledger is a view of the full tree with the added leaves
open. -/
structure Faithful (depth : Nat) (t : T Hash Key Account TokenId) (f : Nat → Account) : Prop where
  depth_eq : t.depth = depth
  view : Summary P depth f t.tree
  added : ∀ i ∈ t.indexes.map (·.2), i < 2 ^ depth ∧ Opened depth t.tree i

variable {P}

theorem faithful_ofHash (depth : Nat) (nextAvailableToken : TokenId) (f : Nat → Account) :
    Faithful P depth (ofHash depth nextAvailableToken (rootOf P depth f) : T Hash Key Account TokenId) f where
  depth_eq := rfl
  view := .hash depth f
  added i hi := by cases hi

theorem Faithful.merkleRoot_eq {depth : Nat} {t : T Hash Key Account TokenId} {f : Nat → Account}
    (h : Faithful P depth t f) : merkleRoot P t = rootOf P depth f := h.view.hash_eq

section Steps

variable [DecidableEq Hash] [DecidableEq Account] {depth : Nat} {t t' : T Hash Key Account TokenId}
  {f : Nat → Account}

/-- Adding a true path succeeds, and opens its leaf. -/
theorem Faithful.addPath_ok (h : Faithful P depth t f) {i : Nat} (hi : i < 2 ^ depth) (key : Key) :
    ∃ t', addPath P t (merklePath P depth f i) key (f i) = .ok t' ∧ Faithful P depth t' f := by
  obtain ⟨tree, htree, hs, ho, hkeep⟩ := union_pathTo P h.view hi
  refine ⟨{ t with tree, indexes := (key, i) :: t.indexes }, ?_, h.depth_eq, hs, ?_⟩
  · rw [addPath, merklePath, List.reverse_reverse, h.depth_eq, htree, Exn.andThen_ok, pathIndex_pathTo P f hi]
  · intro j hj
    rcases List.mem_cons.1 hj with hj | hj
    · exact hj ▸ ⟨hi, ho⟩
    · exact ⟨(h.added j hj).1, hkeep j (h.added j hj).2⟩

/-- Setting an added leaf succeeds, and the other leaves read as before. -/
theorem Faithful.setExn_ok (h : Faithful P depth t f) {i : Nat} (hi : i ∈ t.indexes.map (·.2)) (a : Account) :
    ∃ t', setExn P t i a = .ok t' ∧ Faithful P depth t' (Function.update f i a) ∧
      ∀ j < 2 ^ depth, j ≠ i → ∀ b, getExn t' j = .ok b ↔ getExn t j = .ok b := by
  obtain ⟨rfl, hview, hadded⟩ := h
  obtain ⟨hlt, ho⟩ := hadded i hi
  have hmod := Nat.mod_eq_of_lt hlt
  obtain ⟨tree, htree, hs, hkeep⟩ := setGo_ok P t.depth i a hview (hmod.symm ▸ ho)
  rw [hmod] at hs
  refine ⟨{ t with tree, nextAvailableToken := P.max t.nextAvailableToken (P.next (P.token a)) }, ?_,
    ⟨rfl, hs, ?_⟩, ?_⟩
  · rw [setExn, htree, Exn.andThen_ok]
  · intro j hj
    exact ⟨(hadded j hj).1, (hkeep j).2 (hadded j hj).2⟩
  · intro j hj hne b
    rw [getExn, getExn, getGo_eq_ok P t.depth j hs, getGo_eq_ok P t.depth j hview, hkeep, Nat.mod_eq_of_lt hj,
      Function.update_of_ne hne]

/-- What can be read at an added leaf. -/
theorem Faithful.reads (h : Faithful P depth t f) {i : Nat} (hi : i ∈ t.indexes.map (·.2)) :
    getExn t i = .ok (f i) ∧ pathExn P t i = .ok (merklePath P depth f i) := by
  obtain ⟨rfl, hview, hadded⟩ := h
  obtain ⟨hlt, ho⟩ := hadded i hi
  have hmod := Nat.mod_eq_of_lt hlt
  constructor
  · exact (getGo_eq_ok P t.depth i hview).2 ⟨hmod.symm ▸ ho, by rw [hmod]⟩
  · rw [pathExn, pathGo_ok P i hview (hmod.symm ▸ ho), hmod, List.append_nil, merklePath]

/-- Every step of a run keeps the view faithful. -/
theorem Run.faithful {token : TokenId} {f₀ : Nat → Account} (h : Run P depth token f₀ t f) :
    Faithful P depth t f := by
  induction h with
  | ofHash => exact faithful_ofHash depth token f₀
  | addPath i key _ hi ht ih =>
    obtain ⟨t'', ht'', hf⟩ := ih.addPath_ok hi key
    rw [ht] at ht''
    rwa [Except.ok.inj ht'']
  | setExn i a _ hi ht ih =>
    obtain ⟨t'', ht'', hf, -⟩ := ih.setExn_ok hi a
    rw [ht] at ht''
    rwa [Except.ok.inj ht'']

end Steps

namespace Sample

def params : Params Nat Nat Nat := ⟨fun height l r => 2 * l + 3 * r + height.toNat, id, id, Nat.succ, max⟩

/-- Four accounts. -/
def accounts : Nat → Nat := fun i => 10 + i

/-- The path of the third account is added, and the account is set. -/
theorem run : ∃ t : T Nat Nat Nat Nat, t.indexes.map (·.2) = [2] ∧
    Run params 2 0 accounts t (Function.update accounts 2 7) :=
  ⟨_, rfl, .setExn 2 7 (.addPath 2 5 .ofHash (by decide) rfl) (by decide) rfl⟩

end Sample

end Mina.SparseLedger
