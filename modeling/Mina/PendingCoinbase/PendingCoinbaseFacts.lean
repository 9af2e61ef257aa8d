/-
One lemma for each function of the pending coinbases, over the stacks that
are at the leaves (`Shape`): creation opens every leaf of a tree of empty
stacks, an id leads to the leaf with its bits in the other order, and setting
a stack changes one leaf.
-/
import Mina.PendingCoinbase.PendingCoinbase
import Mina.SparseLedger.SparseLedgerFacts

namespace Mina.PendingCoinbase

open Merkle SparseLedger

variable {F : Type} (O : RandomOracle F)

/-- The root hash of the tree with the stacks `f` at its leaves. -/
def stackRoot (depth : Nat) (f : Nat → Stack F) : F := rootOf (merkleTree O) depth f

theorem stackRoot_congr {depth : Nat} {f g : Nat → Stack F} (hfg : ∀ p < 2 ^ depth, f p = g p) :
    stackRoot O depth f = stackRoot O depth g := rootOf_congr _ hfg

/-! ## Creation -/

theorem hashAtLevel_eq : ∀ h : Nat, hashAtLevel O h = rootOf (merkleTree O) h fun _ => Stack.empty O
  | 0 => rfl
  | h + 1 => by
    rw [hashAtLevel, hashAtLevel_eq h, rootOf_succ, rightHalf_const]
    rfl

/-- The path of a key reads its lowest bit first. -/
theorem createPath_eq : ∀ (h : Nat) (path : List (Step F)) (key : Nat),
    createPath O h path key =
      (pathTo (merkleTree O) h (fun _ => Stack.empty O) (bitReverse h key)).reverse ++ path
  | 0, _, _ => rfl
  | h + 1, path, key => by
    have hlt := bitReverse_lt h (key / 2)
    rw [createPath, createPath_eq h, pathTo, bitReverse, hashAtLevel_eq, rightHalf_const]
    rcases Nat.mod_two_eq_zero_or_one key with hk | hk
    · rw [hk, if_pos rfl, Nat.zero_mul, Nat.zero_add, if_pos hlt, List.reverse_cons, List.append_assoc,
        List.singleton_append]
    · rw [hk, if_neg (by decide), Nat.one_mul, if_neg (by omega), Nat.add_sub_cancel_left, List.reverse_cons,
        List.append_assoc, List.singleton_append]

/-- The tree under construction: the keys below `k` have been added. -/
structure Made (depth k : Nat) (t : SparseLedger.T F Nat (Stack F) Unit) : Prop where
  depth_eq : t.depth = depth
  summary : Summary (merkleTree O) depth (fun _ => Stack.empty O) t.tree
  opened : ∀ j < k, Opened depth t.tree (bitReverse depth j)
  indexes : ∀ j < k, t.indexes.lookup j = some (bitReverse depth j)

section Create

variable [DecidableEq F] {O} {depth k : Nat} {t : SparseLedger.T F Nat (Stack F) Unit}

theorem Made.addPath (hm : Made O depth k t) :
    ∃ t', addPath (merkleTree O) t (createPath O depth [] k) k (Stack.empty O) = .ok t' ∧
      Made O depth (k + 1) t' := by
  have hlt := bitReverse_lt depth k
  obtain ⟨tree, hunion, hs, ho, hkeep⟩ := union_pathTo (merkleTree O) hm.summary hlt
  have hpath := createPath_eq O depth [] k
  rw [List.append_nil] at hpath
  refine ⟨_, by rw [SparseLedger.addPath, hpath, List.reverse_reverse, hm.depth_eq, hunion]; rfl, ?_⟩
  refine ⟨rfl, hs, fun j hj => ?_, fun j hj => ?_⟩
  · rcases Nat.lt_succ_iff_lt_or_eq.1 hj with hlt | rfl
    · exact hkeep _ (hm.opened j hlt)
    · exact ho
  · rcases Nat.lt_succ_iff_lt_or_eq.1 hj with hjk | rfl
    · rw [List.lookup_cons, beq_false_of_ne (Nat.ne_of_lt hjk)]
      exact hm.indexes j hjk
    · rw [List.lookup_cons_self, pathIndex_pathTo _ _ hlt]

theorem makeTree_ok (hk : k ≤ 2 ^ depth) (hm : Made O depth k t) :
    ∃ t', makeTree O depth t k = .ok t' ∧ Made O depth (2 ^ depth) t' := by
  have hpos := Nat.two_pow_pos depth
  induction hn : 2 ^ depth - k generalizing k t with
  | zero =>
    obtain rfl : k = 2 ^ depth := by omega
    rw [makeTree, if_pos (by omega)]
    exact ⟨t, rfl, hm⟩
  | succ n ih =>
    obtain ⟨t', ht', hm'⟩ := hm.addPath
    rw [makeTree, if_neg (by omega), ht', Exn.andThen_ok]
    exact ih (by omega) hm' (by omega)

end Create

/-! ## The stacks at the leaves -/

/-- The stacks at the leaves of the tree are `f`, and the ids lead to them. -/
structure Shape (depth : Nat) (f : Nat → Stack F) (t : T F) : Prop where
  depth_eq : t.tree.depth = depth
  tree : t.tree.tree = complete (merkleTree O) depth f
  index : ∀ k < 2 ^ depth, findIndex t k = .ok (bitReverse depth k)

section Shape

variable {O} {depth : Nat} {f : Nat → Stack F} {t : T F}

theorem create_ok [DecidableEq F] (O : RandomOracle F) (depth : Nat) :
    ∃ t, create O depth = .ok t ∧ Shape O depth (fun _ => Stack.empty O) t ∧ t.posList = [] ∧ t.newPos = 0 := by
  have hm : Made O depth 0 (ofHash depth () (hashAtLevel O depth)) := by
    refine ⟨rfl, ?_, fun j hj => absurd hj (by omega), fun j hj => absurd hj (by omega)⟩
    rw [ofHash, hashAtLevel_eq]
    exact .hash depth _
  obtain ⟨tree, htree, hm'⟩ := makeTree_ok (Nat.zero_le _) hm
  refine ⟨_, by rw [create, htree]; rfl, ⟨hm'.depth_eq, ?_, fun k hk => ?_⟩, rfl, rfl⟩
  · refine hm'.summary.eq_complete _ fun p hp => ?_
    obtain ⟨j, hj, rfl⟩ := bitReverse_surjective hp
    exact hm'.opened j hj
  · rw [findIndex, findIndexExn, hm'.indexes k hk]

theorem Shape.merkleRoot (hs : Shape O depth f t) : merkleRoot O t = stackRoot O depth f := by
  rw [PendingCoinbase.merkleRoot, SparseLedger.merkleRoot, hs.tree, hash_complete]
  rfl

theorem Shape.getStack (hs : Shape O depth f t) {p : Nat} (hp : p < 2 ^ depth) : getStack t p = .ok (f p) := by
  rw [PendingCoinbase.getStack, getExn, hs.tree, hs.depth_eq, getGo_complete, Nat.mod_eq_of_lt hp]

theorem Shape.get_id (hs : Shape O depth f t) {k : Nat} (hk : k < 2 ^ depth) :
    ((findIndex t k).andThen fun index => PendingCoinbase.getStack t index) = .ok (f (bitReverse depth k)) := by
  rw [hs.index k hk, Exn.andThen_ok, hs.getStack (bitReverse_lt depth k)]

/-- Setting the stack at a leaf, before the ids move on. -/
theorem Shape.setExn (hs : Shape O depth f t) {p : Nat} (hp : p < 2 ^ depth) (s : Stack F) :
    ∃ tree, SparseLedger.setExn (merkleTree O) t.tree p s = .ok tree ∧
      ∀ posList newPos, Shape O depth (Function.update f p s) ⟨tree, posList, newPos⟩ := by
  have hgo := setGo_complete (merkleTree O) depth p s depth f
  rw [Nat.mod_eq_of_lt hp] at hgo
  refine ⟨_, by rw [SparseLedger.setExn, hs.tree, hs.depth_eq, hgo]; rfl, fun posList newPos => ?_⟩
  exact ⟨rfl, rfl, hs.index⟩

theorem nextIndex_eq (hnew : t.newPos < 2 ^ depth) : nextIndex depth t = .ok ((t.newPos + 1) % 2 ^ depth) := by
  rw [nextIndex, maxCoinbaseStackCount]
  split
  next hlast =>
    rw [show t.newPos + 1 = 2 ^ depth by omega, Nat.mod_self]
  next hlast =>
    rw [StackId.incrByOne, Nat.mod_eq_of_lt (by omega)]
    exact if_neg (by omega)

theorem Shape.setStack (hs : Shape O depth f t) {p : Nat} (hp : p < 2 ^ depth) (s : Stack F) :
    ∃ t', setStack O depth t p s false = .ok t' ∧ Shape O depth (Function.update f p s) t' ∧
      t'.posList = t.posList ∧ t'.newPos = t.newPos := by
  obtain ⟨tree, htree, hshape⟩ := hs.setExn hp s
  refine ⟨⟨tree, t.posList, t.newPos⟩, ?_, hshape _ _, rfl, rfl⟩
  rw [PendingCoinbase.setStack, htree]
  rfl

theorem Shape.setStack_new (hs : Shape O depth f t) (hnew : t.newPos < 2 ^ depth) {p : Nat} (hp : p < 2 ^ depth)
    (s : Stack F) :
    ∃ t', PendingCoinbase.setStack O depth t p s true = .ok t' ∧ Shape O depth (Function.update f p s) t' ∧
      t'.posList = t.newPos :: t.posList ∧ t'.newPos = (t.newPos + 1) % 2 ^ depth := by
  obtain ⟨tree, htree, hshape⟩ := hs.setExn hp s
  refine ⟨⟨tree, t.newPos :: t.posList, (t.newPos + 1) % 2 ^ depth⟩, ?_, hshape _ _, rfl, rfl⟩
  rw [PendingCoinbase.setStack, htree, Exn.andThen_ok, incrIndex, if_pos rfl, nextIndex_eq (t := ⟨tree, _, _⟩) hnew]
  rfl

end Shape

end Mina.PendingCoinbase
