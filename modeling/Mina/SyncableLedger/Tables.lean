/-
The two tables of the syncer as one: `W` gives the hash that is expected at an
address. Those that are far enough from the leaves are in `waiting_parents`,
the others in `waiting_content` (`withTables`), and each handler is described
by what it does to `W`.
-/
import Mina.SyncableLedger.MerkleTreeFacts

namespace Mina.SyncableLedger

variable {Hash Account D : Type} (P : Hashing Hash Account) (accountSubtreeHeight : Nat)

/-- What is asked about an address. -/
def queryOf (d : Nat) (a : Addr) : Query :=
  if a.length < d - accountSubtreeHeight then .whatChildHashes a else .whatContents a

theorem queryOf_injective {d : Nat} {a b : Addr} (h : queryOf accountSubtreeHeight d a = queryOf accountSubtreeHeight d b) :
    a = b := by
  unfold queryOf at h
  split at h <;> split at h <;> cases h <;> rfl

theorem queryOf_ne_numAccounts (d : Nat) (a : Addr) : queryOf accountSubtreeHeight d a ≠ .numAccounts := by
  unfold queryOf
  split <;> simp

theorem eq_of_queryOf_children {d : Nat} {a b : Addr} (h : queryOf accountSubtreeHeight d b = .whatChildHashes a) :
    b = a ∧ a.length < d - accountSubtreeHeight := by
  unfold queryOf at h
  split at h
  next hlt =>
    cases h
    exact ⟨rfl, hlt⟩
  next => cases h

theorem eq_of_queryOf_contents {d : Nat} {a b : Addr} (h : queryOf accountSubtreeHeight d b = .whatContents a) :
    b = a ∧ ¬ a.length < d - accountSubtreeHeight := by
  unfold queryOf at h
  split at h
  next => cases h
  next hlt =>
    cases h
    exact ⟨rfl, hlt⟩

/-- The syncer that waits for `W`. -/
def withTables (t : T Hash Account D) (W : Addr → Option Hash) : T Hash Account D :=
  { t with
    waitingParents := fun a => if a.length < t.tree.depth - accountSubtreeHeight then W a else none
    waitingContent := fun a => if a.length < t.tree.depth - accountSubtreeHeight then none else W a }

/-- The addresses of a list of children are waited for. -/
def expectAll (W : Addr → Option Hash) (l : List (Addr × Hash)) : Addr → Option Hash :=
  l.foldl (fun W p => Function.update W p.1 (some p.2)) W

theorem expectAll_cons (W : Addr → Option Hash) (p : Addr × Hash) (l : List (Addr × Hash)) :
    expectAll W (p :: l) = expectAll (Function.update W p.1 (some p.2)) l := rfl

theorem expectAll_isSome {l : List (Addr × Hash)} : ∀ {W : Addr → Option Hash} {b : Addr},
    (expectAll W l b).isSome = true ↔ (∃ p ∈ l, p.1 = b) ∨ (W b).isSome = true := by
  induction l with
  | nil => simp [expectAll]
  | cons p l ih =>
    intro W b
    rw [expectAll_cons, ih]
    by_cases hb : b = p.1
    · subst hb
      simp
    · have hb' : ¬ p.1 = b := fun h => hb h.symm
      simp only [Function.update_of_ne hb, List.mem_cons, exists_eq_or_imp, hb', false_or]

variable {t : T Hash Account D} {W : Addr → Option Hash}

/-! ## Asking -/

section HandleNode

variable {a : Addr} {h g : Hash} (hg : t.desiredRoot = some g)
include hg

theorem handleNode_ok (hW : W a = none) :
    handleNode accountSubtreeHeight (withTables accountSubtreeHeight t W) a h =
      .ok (write (withTables accountSubtreeHeight t (Function.update W a (some h)))
        (g, queryOf accountSubtreeHeight t.tree.depth a)) := by
  have hupdate : ∀ (b : Addr), b ≠ a → Function.update W a (some h) b = W b := fun b hb => Function.update_of_ne hb _ _
  unfold handleNode
  by_cases hlt : a.length < t.tree.depth - accountSubtreeHeight
  · have hno : ¬ Addr.depth a ≥ (withTables accountSubtreeHeight t W).tree.depth - accountSubtreeHeight := by
      rw [Addr.depth]
      exact not_le.2 hlt
    rw [if_neg hno, queryOf, if_pos hlt, expectChildren, addExn]
    simp only [withTables, if_pos hlt, hW, Exn.andThen_ok, desiredRootExn, hg, Exn.valueExn_some]
    congr 3 <;> funext b <;> by_cases hb : b = a
    · subst hb
      rw [Function.update_self, if_pos hlt, Function.update_self]
    · rw [Function.update_of_ne hb, hupdate b hb]
    · subst hb
      rw [if_pos hlt, if_pos hlt]
    · rw [hupdate b hb]
  · have hyes : Addr.depth a ≥ (withTables accountSubtreeHeight t W).tree.depth - accountSubtreeHeight := by
      rw [Addr.depth]
      exact not_lt.1 hlt
    rw [if_pos hyes, queryOf, if_neg hlt, expectContent, addExn]
    simp only [withTables, if_neg hlt, hW, Exn.andThen_ok, desiredRootExn, hg, Exn.valueExn_some]
    congr 3 <;> funext b <;> by_cases hb : b = a
    · subst hb
      rw [if_neg hlt, if_neg hlt]
    · rw [hupdate b hb]
    · subst hb
      rw [Function.update_self, if_neg hlt, Function.update_self]
    · rw [Function.update_of_ne hb, hupdate b hb]

end HandleNode

/-- What was written for a list of children. -/
def writeAll (t : T Hash Account D) (g : Hash) (l : List (Addr × Hash)) : T Hash Account D :=
  { t with queries := t.queries ++ l.map fun p => (g, queryOf accountSubtreeHeight t.tree.depth p.1) }

theorem handleNodes_ok {g : Hash} : ∀ (l : List (Addr × Hash)) {t : T Hash Account D}
    {W : Addr → Option Hash}, t.desiredRoot = some g → (l.map (·.1)).Nodup → (∀ p ∈ l, W p.1 = none) →
    Exn.fold (fun t p => handleNode accountSubtreeHeight t p.1 p.2) (withTables accountSubtreeHeight t W) l =
      .ok (withTables accountSubtreeHeight (writeAll accountSubtreeHeight t g l) (expectAll W l))
  | [], t, W, _, _, _ => by
    rw [Exn.fold, writeAll, List.map_nil, List.append_nil]
    rfl
  | p :: l, t, W, hg', hnodup, hW => by
    rw [List.map_cons, List.nodup_cons] at hnodup
    rw [Exn.fold, handleNode_ok accountSubtreeHeight hg' (hW p (by simp)), Exn.andThen_ok]
    have ih := handleNodes_ok l (t := write t (g, queryOf accountSubtreeHeight t.tree.depth p.1))
      (W := Function.update W p.1 (some p.2)) hg' hnodup.2 fun q hq => by
        rw [Function.update_of_ne]
        · exact hW q (by simp [hq])
        · intro heq
          exact hnodup.1 (List.mem_map.2 ⟨q, hq, heq⟩)
    refine Eq.trans ih ?_
    rw [writeAll, writeAll, write, List.map_cons, List.append_assoc]
    rfl

/-! ## Answers -/

variable [DecidableEq Hash]

/-- The children whose hash in the tree is another one. -/
def stale (tree : MT Account) (a : Addr) (lh rh : Hash) : List (Addr × Hash) :=
  [(a ++ [.left], lh), (a ++ [.right], rh)].filter fun p => tree.hashAt P p.1 ≠ p.2

theorem mem_stale {tree : MT Account} {a : Addr} {lh rh : Hash} {p : Addr × Hash} :
    p ∈ stale P tree a lh rh ↔
      (p = (a ++ [.left], lh) ∨ p = (a ++ [.right], rh)) ∧ tree.hashAt P p.1 ≠ p.2 := by
  simp [stale]

theorem stale_child {tree : MT Account} {a : Addr} {lh rh : Hash} {p : Addr × Hash} (hp : p ∈ stale P tree a lh rh) :
    ∃ dir, p.1 = a ++ [dir] := by
  obtain ⟨rfl | rfl, -⟩ := (mem_stale P).1 hp
  · exact ⟨.left, rfl⟩
  · exact ⟨.right, rfl⟩

theorem stale_nodup (tree : MT Account) (a : Addr) (lh rh : Hash) : ((stale P tree a lh rh).map (·.1)).Nodup := by
  have hnodup : ([(a ++ [Direction.left], lh), (a ++ [.right], rh)].map (·.1)).Nodup := by simp
  exact hnodup.sublist (List.filter_sublist.map _)

theorem filterExn_ok {A : Type} {f : A → Exn Bool} {g : A → Bool} : ∀ {l : List A}, (∀ a ∈ l, f a = .ok (g a)) →
    filterExn f l = .ok (l.filter g)
  | [], _ => rfl
  | a :: l, h => by
    have ih := filterExn_ok fun b hb => h b (List.mem_cons_of_mem a hb)
    rw [filterExn, h a List.mem_cons_self, Exn.andThen_ok, ih, Exn.andThen_ok, List.filter_cons]

variable {a : Addr} {e : Hash} (hW : W a = some e)
include hW

theorem addChildHashesTo_ok (ha : a.length < t.tree.depth - accountSubtreeHeight) (lh rh : Hash) :
    addChildHashesTo P (withTables accountSubtreeHeight t W) a lh rh =
      if P.merge (t.tree.depth - a.length - 1) lh rh = e then
        .ok (withTables accountSubtreeHeight t (Function.update W a none), .good (stale P t.tree a lh rh))
      else
        .ok (withTables accountSubtreeHeight t W, .hashMismatch e (P.merge (t.tree.depth - a.length - 1) lh rh)) := by
  have hlt : a.length < t.tree.depth := by omega
  have hwait : (withTables accountSubtreeHeight t W).waitingParents a = some e := by
    simp only [withTables, if_pos ha, hW]
  have htree : (withTables accountSubtreeHeight t W).tree = t.tree := rfl
  have hfilter : filterExn (shouldFetchChildren P (withTables accountSubtreeHeight t W))
      [(a ++ [.left], lh), (a ++ [.right], rh)] = .ok (stale P t.tree a lh rh) := by
    refine filterExn_ok fun p hp => ?_
    have hp' : p.1.length ≤ t.tree.depth := by
      simp only [List.mem_cons, List.not_mem_nil, or_false] at hp
      rcases hp with rfl | rfl <;> simp only [List.length_append, List.length_singleton] <;> omega
    rw [shouldFetchChildren, htree, MT.getInnerHashAtAddrExn_ok P hp', Exn.andThen_ok]
  rw [addChildHashesTo, htree, Addr.child_ok hlt, Exn.andThen_ok, Addr.child_ok hlt, Exn.andThen_ok, hwait]
  simp only [hfilter, Exn.andThen_ok, Addr.depth]
  split
  · congr 2
    simp only [withTables]
    congr 1 <;> funext b <;> by_cases hb : b = a
    · subst hb
      rw [Function.update_self, if_pos ha, Function.update_self]
    · rw [Function.update_of_ne hb, Function.update_of_ne hb]
    · subst hb
      rw [if_pos ha, if_pos ha]
    · rw [Function.update_of_ne hb]
  · rfl

theorem addContent_ok (ha : ¬ a.length < t.tree.depth - accountSubtreeHeight) (hle : a.length ≤ t.tree.depth)
    {content : List Account} {tree' : MT Account}
    (hset : t.tree.setAllAccountsRootedAtExn a content = .ok tree') (hdepth : tree'.depth = t.tree.depth) :
    addContent P (withTables accountSubtreeHeight t W) a content =
      .ok (withTables accountSubtreeHeight { t with tree := tree' } (Function.update W a none),
        if tree'.hashAt P a = e then .good () else .hashMismatch e (tree'.hashAt P a)) := by
  have hwait : (withTables accountSubtreeHeight t W).waitingContent a = some e := by
    simp only [withTables, if_neg ha, hW]
  have htree : (withTables accountSubtreeHeight t W).tree = t.tree := rfl
  have hinner : tree'.getInnerHashAtAddrExn P a = .ok (tree'.hashAt P a) :=
    MT.getInnerHashAtAddrExn_ok P (by rw [hdepth]; exact hle)
  rw [addContent, hwait, htree]
  simp only [hset, Exn.andThen_ok, hinner]
  congr 2
  simp only [withTables, hdepth]
  congr 1 <;> funext b <;> by_cases hb : b = a
  · subst hb
    rw [if_neg ha, if_neg ha]
  · rw [Function.update_of_ne hb]
  · subst hb
    rw [Function.update_self, if_neg ha, Function.update_self]
  · rw [Function.update_of_ne hb, Function.update_of_ne hb]

omit hW

/-- The number of accounts is accepted if its content root, completed with
empty subtrees, is the goal. -/
theorem handleNumAccounts_fits {g : Hash} (hg : t.desiredRoot = some g) {n : Nat} (hpos : 0 < n)
    (hn : n ≤ 2 ^ t.tree.depth) (contentHash : Hash) :
    handleNumAccounts P accountSubtreeHeight t n contentHash =
      if completeGo P (emptyHashAtHeight P (Nat.clog 2 n)) contentHash (Nat.clog 2 n) (t.tree.depth - Nat.clog 2 n) = g
      then
        .ok (write (withTables accountSubtreeHeight t (Function.update (fun _ => none) Addr.root (some g)))
          (g, queryOf accountSubtreeHeight t.tree.depth Addr.root), .good ())
      else
        .ok (t, .hashMismatch g
          (completeGo P (emptyHashAtHeight P (Nat.clog 2 n)) contentHash (Nat.clog 2 n)
            (t.tree.depth - Nat.clog 2 n))) := by
  have hle : Nat.clog 2 n ≤ t.tree.depth := Nat.clog_le_of_le_pow hn
  have hclear : { t with
        tree := t.tree.makeSpaceFor n
        waitingParents := fun _ => none
        waitingContent := fun _ => none } = withTables accountSubtreeHeight t fun _ => none := by
    simp only [withTables, MT.makeSpaceFor, ite_self]
  have hdesired : desiredRootExn t = .ok g := Exn.valueExn_eq_ok.2 hg
  have hnode : handleNode accountSubtreeHeight _ Addr.root g = _ :=
    handleNode_ok accountSubtreeHeight hg (W := fun _ => none) rfl
  rw [← hclear] at hnode
  rw [handleNumAccounts, Exn.andThen_of_ok hdesired, ceilLog2, if_pos hpos, Exn.andThen_ok, completeWithEmpties,
    if_pos hle, Exn.andThen_ok]
  split
  · exact Exn.andThen_of_ok hnode _
  · rfl

theorem handleNumAccounts_ok {g : Hash} (hg : t.desiredRoot = some g) {n : Nat} (hpos : 0 < n)
    (hn : n ≤ 2 ^ t.tree.depth) (contentHash : Hash) :
    handleNumAccounts P accountSubtreeHeight (withTables accountSubtreeHeight t W) n contentHash =
      if completeGo P (emptyHashAtHeight P (Nat.clog 2 n)) contentHash (Nat.clog 2 n) (t.tree.depth - Nat.clog 2 n) = g
      then
        .ok (write (withTables accountSubtreeHeight t (Function.update (fun _ => none) Addr.root (some g)))
          (g, queryOf accountSubtreeHeight t.tree.depth Addr.root), .good ())
      else
        .ok (withTables accountSubtreeHeight t W, .hashMismatch g
          (completeGo P (emptyHashAtHeight P (Nat.clog 2 n)) contentHash (Nat.clog 2 n)
            (t.tree.depth - Nat.clog 2 n))) :=
  handleNumAccounts_fits P accountSubtreeHeight (t := withTables accountSubtreeHeight t W) hg hpos hn contentHash

/-! ## What becomes of an answer -/

section HandleResult

variable {g : Hash} (hg : t.desiredRoot = some g)
include hg

theorem handleResult_children (hW : W a = some e) (hfree : ∀ dir, W (a ++ [dir]) = none)
    (ha : a.length < t.tree.depth - accountSubtreeHeight) (lh rh : Hash) :
    handleResult P accountSubtreeHeight (withTables accountSubtreeHeight t W) g (.whatChildHashes a)
        (.childHashesAre lh rh) =
      if P.merge (t.tree.depth - a.length - 1) lh rh = e then
        .ok (withTables accountSubtreeHeight (writeAll accountSubtreeHeight t g (stale P t.tree a lh rh))
          (expectAll (Function.update W a none) (stale P t.tree a lh rh)), .fulfilledRequest)
      else .ok (write (withTables accountSubtreeHeight t W) (g, .whatChildHashes a), .sentBadHash) := by
  have hadd := addChildHashesTo_ok P accountSubtreeHeight hW ha lh rh
  have hfold := handleNodes_ok accountSubtreeHeight (stale P t.tree a lh rh)
    (W := Function.update W a none) hg (stale_nodup P t.tree a lh rh) fun p hp => by
      obtain ⟨dir, hdir⟩ := stale_child P hp
      have hne : a ++ [dir] ≠ a := by simp
      rw [hdir, Function.update_of_ne hne]
      exact hfree dir
  split at hadd
  next hmerge =>
    rw [if_pos hmerge]
    refine (Exn.andThen_of_ok hadd _).trans ?_
    exact Exn.andThen_of_ok hfold _
  next hmerge =>
    rw [if_neg hmerge]
    exact Exn.andThen_of_ok hadd _

omit hg in
theorem handleResult_contents (hW : W a = some e) (ha : ¬ a.length < t.tree.depth - accountSubtreeHeight)
    (hle : a.length ≤ t.tree.depth) {content : List Account} {tree' : MT Account}
    (hset : t.tree.setAllAccountsRootedAtExn a content = .ok tree') (hdepth : tree'.depth = t.tree.depth)
    (hhash : tree'.hashAt P a = e) :
    handleResult P accountSubtreeHeight (withTables accountSubtreeHeight t W) g (.whatContents a)
        (.contentsAre content) =
      .ok (withTables accountSubtreeHeight { t with tree := tree' } (Function.update W a none), .fulfilledRequest) := by
  have hadd := addContent_ok P accountSubtreeHeight hW ha hle hset hdepth
  rw [if_pos hhash] at hadd
  exact Exn.andThen_of_ok hadd _

theorem handleResult_count {n : Nat} (hpos : 0 < n) (hn : n ≤ 2 ^ t.tree.depth) (contentHash : Hash) :
    handleResult P accountSubtreeHeight (withTables accountSubtreeHeight t W) g .numAccounts
        (.numAccounts n contentHash) =
      if completeGo P (emptyHashAtHeight P (Nat.clog 2 n)) contentHash (Nat.clog 2 n) (t.tree.depth - Nat.clog 2 n) = g
      then
        .ok (write (withTables accountSubtreeHeight t (Function.update (fun _ => none) Addr.root (some g)))
          (g, queryOf accountSubtreeHeight t.tree.depth Addr.root), .fulfilledRequest)
      else .ok (write (withTables accountSubtreeHeight t W) (g, .numAccounts), .sentBadHash) := by
  have hcount := handleNumAccounts_ok P accountSubtreeHeight (W := W) hg hpos hn contentHash
  split at hcount
  next hroot =>
    rw [if_pos hroot]
    exact Exn.andThen_of_ok hcount _
  next hroot =>
    rw [if_neg hroot]
    exact Exn.andThen_of_ok hcount _

end HandleResult

end Mina.SyncableLedger
