/-
The answer to `Num_accounts`, for every count that a peer may send.

The height of the subtree with all accounts is computed from the count alone.
A count that is not positive raises, and one of more accounts than the ledger
has leaves starts the loop of `complete_with_empties` above the height at
which it stops (`completeLoop_none`). Every other count is handled
(`numAccounts_handled_iff`).
-/
import Mina.SyncableLedger.Faults

namespace Mina.SyncableLedger

variable {Hash Account D : Type} [DecidableEq Hash] (P : Hashing Hash Account) (accountSubtreeHeight : Nat)

/-- `handle_num_accounts` for any integer: one that is not positive raises, as
zero does. -/
def handleCount (t : T Hash Account D) (n : Int) (contentHash : Hash) : Exn (T Hash Account D × Result Hash Unit) :=
  handleNumAccounts P accountSubtreeHeight t n.toNat contentHash

/-! ## The loop -/

/-- `go` of `complete_with_empties`, which stops on equality, with fuel. -/
def completeLoop (resultHeight : Nat) : Nat → Hash → Hash → Nat → Option Hash
  | 0, _, _, _ => none
  | fuel + 1, curEmpty, prevHash, height =>
    if height = resultHeight then some prevHash
    else
      let cur := P.merge height prevHash curEmpty
      let nextEmpty := P.merge height curEmpty curEmpty
      completeLoop resultHeight fuel nextEmpty cur (height + 1)

omit [DecidableEq Hash]

/-- Above the height at which it stops the loop goes on forever. -/
theorem completeLoop_none (fuel : Nat) {height resultHeight : Nat} (hlt : resultHeight < height)
    (curEmpty prevHash : Hash) : completeLoop P resultHeight fuel curEmpty prevHash height = none := by
  induction fuel generalizing height curEmpty prevHash with
  | zero => rfl
  | succ fuel ih =>
    rw [completeLoop, if_neg (by omega)]
    exact ih (by omega) _ _

/-! ## The answer -/

/-- The hash of a tree of height `height + k`, of which the subtree of height
`height` farthest to the left has the hash `hash`, and the rest is empty. -/
def completed (height : Nat) (hash : Hash) : Nat → Hash
  | 0 => hash
  | k + 1 => P.merge (height + k) (completed height hash k) (emptyHashAtHeight P (height + k))

theorem completed_succ (height : Nat) (hash : Hash) (k : Nat) :
    completed P height hash (k + 1) =
      completed P (height + 1) (P.merge height hash (emptyHashAtHeight P height)) k := by
  induction k with
  | zero => rfl
  | succ k ih => rw [completed, ih, completed, show height + (k + 1) = height + 1 + k by omega]

theorem completeGo_completed (k height : Nat) (hash : Hash) :
    completeGo P (emptyHashAtHeight P height) hash height k = completed P height hash k := by
  induction k generalizing height hash with
  | zero => rfl
  | succ k ih =>
    rw [completeGo, completed_succ, ← ih]
    rfl

section Answer

variable [DecidableEq Hash] {t : T Hash Account D} {g : Hash} (hg : t.desiredRoot = some g) {n : Int}
include hg

theorem handleCount_fits (hpos : 1 ≤ n) (hn : n ≤ 2 ^ t.tree.depth) (contentHash : Hash) :
    (∃ r, handleCount P accountSubtreeHeight t n contentHash = .ok r) ∧
      ((∃ t', handleCount P accountSubtreeHeight t n contentHash = .ok (t', .good ())) ↔
        completed P (Nat.clog 2 n.toNat) contentHash (t.tree.depth - Nat.clog 2 n.toNat) = g) := by
  have hn' : n.toNat ≤ 2 ^ t.tree.depth := by
    rw [Int.toNat_le]
    exact_mod_cast hn
  have hok := handleNumAccounts_fits P accountSubtreeHeight hg (show 0 < n.toNat by omega) hn' contentHash
  rw [completeGo_completed] at hok
  rw [handleCount, hok]
  by_cases hroot : completed P (Nat.clog 2 n.toNat) contentHash (t.tree.depth - Nat.clog 2 n.toNat) = g
  · rw [if_pos hroot]
    exact ⟨⟨_, rfl⟩, iff_of_true ⟨_, rfl⟩ hroot⟩
  · rw [if_neg hroot]
    exact ⟨⟨_, rfl⟩, iff_of_false (fun ⟨_, hgood⟩ => (by cases hgood)) hroot⟩

/-- A count that does not fit is not handled. -/
theorem handleCount_error (hn : n < 1 ∨ 2 ^ t.tree.depth < n) (contentHash : Hash) :
    ∃ e, handleCount P accountSubtreeHeight t n contentHash = .error e := by
  have hdesired : desiredRootExn t = .ok g := Exn.valueExn_eq_ok.2 hg
  rw [handleCount, handleNumAccounts, Exn.andThen_of_ok hdesired, ceilLog2]
  rcases hn with hn | hn
  · rw [if_neg (by omega)]
    exact ⟨_, rfl⟩
  · have hpow : 0 < (2 : Int) ^ t.tree.depth := by positivity
    have hclog : ¬ Nat.clog 2 n.toNat ≤ t.tree.depth := by
      rw [Nat.clog_le_iff_le_pow Nat.one_lt_two, not_le, Int.lt_toNat]
      exact_mod_cast hn
    rw [if_pos (by omega), Exn.andThen_ok, completeWithEmpties, if_neg hclog]
    exact ⟨_, rfl⟩

/-- **Exactly the counts of accounts for which the ledger has leaves are
handled**: the answer ends without raising, and is accepted if and only if its
content hash, completed with empty subtrees, is the desired root. -/
theorem numAccounts_handled_iff (n : Int) (contentHash : Hash) :
    ((∃ r, handleCount P accountSubtreeHeight t n contentHash = .ok r) ∧
      ((∃ t', handleCount P accountSubtreeHeight t n contentHash = .ok (t', .good ())) ↔
        1 ≤ n ∧ n ≤ 2 ^ t.tree.depth ∧
          completed P (Nat.clog 2 n.toNat) contentHash (t.tree.depth - Nat.clog 2 n.toNat) = g)) ↔
    1 ≤ n ∧ n ≤ 2 ^ t.tree.depth := by
  constructor
  · rintro ⟨⟨r, hr⟩, -⟩
    by_contra hnot
    obtain ⟨e, he⟩ := handleCount_error P accountSubtreeHeight hg (n := n) (by omega) contentHash
    rw [he] at hr
    cases hr
  · rintro ⟨hpos, hn⟩
    obtain ⟨hok, hgood⟩ := handleCount_fits P accountSubtreeHeight hg hpos hn contentHash
    exact ⟨hok, hgood.trans ⟨fun hroot => ⟨hpos, hn, hroot⟩, fun hroot => hroot.2.2⟩⟩

end Answer

/-- The three accounts of the goal are accepted. -/
theorem numAccounts_handled_three :
    (∃ r, handleCount numberHashing 1 numberNet.t 3 numberGoal = .ok r) ∧
      ((∃ t', handleCount numberHashing 1 numberNet.t 3 numberGoal = .ok (t', .good ())) ↔
        (1 : Int) ≤ 3 ∧ (3 : Int) ≤ 2 ^ numberNet.t.tree.depth ∧
          completed numberHashing (Nat.clog 2 (3 : Int).toNat) numberGoal
            (numberNet.t.tree.depth - Nat.clog 2 (3 : Int).toNat) = numberGoal) :=
  (numAccounts_handled_iff numberHashing 1 rfl 3 numberGoal).2 ⟨by decide, by decide⟩

/-- A count of five for a ledger of four leaves starts a loop that does not
end, and a count of zero raises. -/
theorem numAccounts_unhandled :
    (∀ fuel, completeLoop numberHashing 2 fuel (emptyHashAtHeight numberHashing 3) 0 3 = none) ∧
      handleCount numberHashing 1 numberNet.t 0 0 = .error "Int.ceil_log2 got invalid input" ∧
      ¬ ∀ (n : Int) (contentHash : Nat),
        (∃ r, handleCount numberHashing 1 numberNet.t n contentHash = .ok r) ∧
          ((∃ t', handleCount numberHashing 1 numberNet.t n contentHash = .ok (t', .good ())) ↔
            1 ≤ n ∧ n ≤ 2 ^ numberNet.t.tree.depth ∧
              completed numberHashing (Nat.clog 2 n.toNat) contentHash (numberNet.t.tree.depth - Nat.clog 2 n.toNat) =
                numberGoal) := by
  refine ⟨fun fuel => completeLoop_none _ fuel (by decide) _ _, rfl, fun hall => ?_⟩
  obtain ⟨⟨r, hr⟩, -⟩ := hall 0 0
  cases hr

end Mina.SyncableLedger
