/-
What the responder answers from a ledger whose accounts are at the first
positions: the hashes of the children, the accounts below an address that has
any, and the number of accounts with the hash of the smallest left subtree
that has them all.
-/
import Mina.SyncableLedger.MerkleTreeFacts

namespace Mina.SyncableLedger

variable {Hash Account : Type} (P : Hashing Hash Account) (accountSubtreeHeight : Nat)

/-- The accounts are at the positions below `n`. -/
structure Filled (t : MT Account) (n : Nat) : Prop where
  get : ∀ i, (t.get i).isSome = true ↔ i < n
  count : t.numAccounts = n

theorem Filled.none {t : MT Account} {n : Nat} (ht : Filled t n) {i : Nat} (hi : n ≤ i) : t.get i = none := by
  rw [← Option.not_isSome_iff_eq_none, ht.get]
  omega

namespace Responder

/-! ## Contents -/

/-- The accounts of consecutive positions, with their positions. -/
theorem filterMap_range' (get : Nat → Option Account) : ∀ (k s : Nat), (∀ i < k, (get (s + i)).isSome = true) →
    ∃ l : List Account, l.length = k ∧ (∀ i < k, l[i]? = get (s + i)) ∧
      (List.range' s k).filterMap (fun i => (get i).map fun account => (i, account)) = (List.range' s k).zip l
  | 0, s, _ => ⟨[], rfl, fun i hi => absurd hi (Nat.not_lt_zero i), rfl⟩
  | k + 1, s, hsome => by
    obtain ⟨account, haccount⟩ := Option.isSome_iff_exists.1 (hsome 0 (Nat.zero_lt_succ k))
    obtain ⟨l, hlen, hget, hmap⟩ := filterMap_range' get k (s + 1) fun i hi => by
      have := hsome (i + 1) (by omega)
      rwa [show s + (i + 1) = s + 1 + i by omega] at this
    refine ⟨account :: l, by rw [List.length_cons, hlen], fun i hi => ?_, ?_⟩
    · cases i with
      | zero => rw [List.getElem?_cons_zero, haccount]
      | succ i => rw [List.getElem?_cons_succ, hget i (by omega), show s + 1 + i = s + (i + 1) by omega]
    · rw [Nat.add_zero] at haccount
      rw [List.range'_succ, List.filterMap_cons, haccount, List.zip_cons_cons, hmap]
      rfl

theorem filterMap_none (get : Nat → Option Account) (k s : Nat) (hnone : ∀ i < k, get (s + i) = none) :
    (List.range' s k).filterMap (fun i => (get i).map fun account => (i, account)) = [] := by
  refine List.filterMap_eq_nil_iff.2 fun j hj => ?_
  rw [List.mem_range'_1] at hj
  have hget := hnone (j - s) (by omega)
  rw [Nat.add_sub_cancel' hj.1] at hget
  rw [hget, Option.map_none]

theorem isCompact_range' {d : Nat} : ∀ (m s : Nat), s + m < 2 ^ d → isCompact d s (List.range' (s + 1) m) = true
  | 0, s, _ => rfl
  | m + 1, s, hlt => by
    have ih : isCompact d (s + 1) (List.range' (s + 1 + 1) m) = true := isCompact_range' m (s + 1) (by omega)
    unfold isCompact at ih ⊢
    rw [List.range'_succ, List.foldl_cons]
    have hnext : Addr.next d s = some (s + 1) := if_pos (by omega)
    simp only [hnext, and_self, if_true]
    exact ih

variable {t : MT Account}

/-- The accounts below an address that has some. -/
theorem answer_contents {n : Nat} (ht : Filled t n) (hn : n ≤ 2 ^ t.depth) {a : Addr} (ha : a.length ≤ t.depth)
    (hheight : Addr.height t.depth a ≤ accountSubtreeHeight) (hfirst : Addr.first t.depth a < n) :
    ∃ l : List Account, answerQuery P accountSubtreeHeight t (.whatContents a) = .ok (some (.contentsAre l)) ∧
      l.length = min (n - Addr.first t.depth a) (2 ^ Addr.height t.depth a) ∧
      ∀ i < l.length, l[i]? = t.get (Addr.first t.depth a + i) := by
  obtain ⟨k, hk⟩ : ∃ k, k + 1 = min (n - Addr.first t.depth a) (2 ^ Addr.height t.depth a) := by
    have hpos := Nat.two_pow_pos (Addr.height t.depth a)
    exact ⟨min (n - Addr.first t.depth a) (2 ^ Addr.height t.depth a) - 1, by omega⟩
  obtain ⟨l, hlen, hget, hmap⟩ := filterMap_range' t.get (k + 1) (Addr.first t.depth a) fun i hi =>
    (ht.get _).2 (by omega)
  have haccounts : t.getAllAccountsRootedAtExn a =
      .ok ((List.range' (Addr.first t.depth a) (k + 1)).zip l) := by
    have hrange : Addr.subtreeRange t.depth a = List.range' (Addr.first t.depth a) (k + 1) ++
        List.range' (Addr.first t.depth a + (k + 1)) (2 ^ Addr.height t.depth a - (k + 1)) := by
      rw [Addr.subtreeRange, List.range'_append_1, Nat.add_sub_cancel' (by omega)]
    rw [MT.getAllAccountsRootedAtExn, Addr.depth, decide_eq_true ha, Exn.assert_true, hrange, List.filterMap_append, hmap,
      filterMap_none t.get _ _ fun i hi => ht.none (by omega), List.append_nil]
  have hkeys : ((List.range' (Addr.first t.depth a) (k + 1)).zip l).map (·.1) =
      List.range' (Addr.first t.depth a) (k + 1) := List.map_fst_zip (by rw [List.length_range', hlen])
  have hvalues : ((List.range' (Addr.first t.depth a) (k + 1)).zip l).map (·.2) = l :=
    List.map_snd_zip (by rw [List.length_range', hlen])
  have hsorted : ((List.range' (Addr.first t.depth a) (k + 1)).zip l).insertionSort (fun p q => p.1 ≤ q.1) =
      (List.range' (Addr.first t.depth a) (k + 1)).zip l := by
    refine List.Pairwise.insertionSort_eq ?_
    have hpair : (List.range' (Addr.first t.depth a) (k + 1)).Pairwise (· < ·) := List.pairwise_lt_range'
    rw [← hkeys, List.pairwise_map] at hpair
    exact hpair.imp fun h => h.le
  have hcompact : isCompact t.depth (Addr.first t.depth a) (List.range' (Addr.first t.depth a + 1) k) = true :=
    isCompact_range' k _ (by omega)
  refine ⟨l, ?_, hlen.trans hk, fun i hi => hget i (by omega)⟩
  rw [answerQuery, if_neg (not_lt.2 hheight), haccounts, Exn.andThen_ok]
  simp only [hsorted]
  rw [hkeys, hvalues, List.range'_succ]
  simp only [hcompact, Exn.assert_true]

/-! ## Hashes -/

theorem answer_children {a : Addr} (ha : a.length < t.depth) :
    answerQuery P accountSubtreeHeight t (.whatChildHashes a) =
      .ok (some (.childHashesAre (t.hashAt P (a ++ [.left])) (t.hashAt P (a ++ [.right])))) := by
  have hle : ∀ dir, (a ++ [dir]).length ≤ t.depth := fun dir => by
    rw [List.length_append, List.length_singleton]
    exact ha
  simp only [answerQuery, Addr.child_ok ha, Exn.andThen_ok, MT.getInnerHashAtAddrExn_ok P (hle _)]

theorem answer_count {n : Nat} (ht : Filled t n) (hpos : 0 < n) :
    answerQuery P accountSubtreeHeight t .numAccounts =
      .ok (some (.numAccounts n (t.hashAt P (List.replicate (t.depth - Nat.clog 2 n) .left)))) := by
  have hle : (List.replicate (t.depth - Nat.clog 2 n) Direction.left).length ≤ t.depth := by
    rw [List.length_replicate]
    exact Nat.sub_le _ _
  simp only [answerQuery, ht.count, ceilLog2, if_pos hpos, Exn.andThen_ok, MT.getInnerHashAtAddrExn_ok P hle]

/-- The hash that goes with the number of accounts, completed with empty
subtrees, is the root. -/
theorem complete_count {n : Nat} (ht : Filled t n) (hn : n ≤ 2 ^ t.depth) :
    completeGo P (emptyHashAtHeight P (Nat.clog 2 n))
        (t.hashAt P (List.replicate (t.depth - Nat.clog 2 n) .left)) (Nat.clog 2 n) (t.depth - Nat.clog 2 n) =
      t.merkleRoot P := by
  have hclog : Nat.clog 2 n ≤ t.depth := Nat.clog_le_of_le_pow hn
  have hpow : n ≤ 2 ^ Nat.clog 2 n := Nat.le_pow_clog (by omega) n
  have hheight : Addr.height t.depth (List.replicate (t.depth - Nat.clog 2 n) Direction.left) = Nat.clog 2 n := by
    rw [Addr.height, Addr.depth, List.length_replicate]
    omega
  have hleft : t.hashAt P (List.replicate (t.depth - Nat.clog 2 n) .left) =
      Merkle.root P.merge P.slot (Nat.clog 2 n) t.get := by
    rw [MT.hashAt, hheight, Addr.first, Addr.toInt_replicate_left, Nat.zero_mul]
    simp only [Nat.zero_add]
  have hroot : t.merkleRoot P = Merkle.root P.merge P.slot t.depth t.get := by
    rw [MT.merkleRoot, MT.hashAt, Addr.first_root]
    simp only [Nat.zero_add]
    rfl
  rw [hleft, hroot, completeGo_eq P t.get _ _ fun i hi _ => ht.none (by omega), Nat.add_sub_cancel' hclog]

end Responder

end Mina.SyncableLedger
