/-
Lying peers and changing goals.

Two things make `handle_answer` raise. Accounts that hash to something else
than expected are taken out of `waiting_content` before the hash is checked:
the query is queued again, but its next answer finds nothing. And a goal that
comes back brings back the queries that were asked for it before: their
answers use up what the new round waits for. Without these (`Sound`), no
answer raises on any run, and a rejected one leaves the syncer as it was
(`answers_survived`).
-/
import Mina.SyncableLedger.Network

namespace Mina.SyncableLedger

variable {Hash Account D : Type} [DecidableEq Hash] (P : Hashing Hash Account) (accountSubtreeHeight : Nat)

/-- The nets that are reached by new goals and by answers to outstanding
queries, when every answer is `Sound`. -/
inductive Run : Net Hash Account D → Prop where
  | create (mt : MT Account) : Run (Net.create mt)
  | newGoal {net : Net Hash Account D} (hrun : Run net) (h : Hash) (data : D) (equal : D → D → Bool) :
      Run (net.newGoal h data equal)
  | answer {net net' : Net Hash Account D} {x : Pending Hash} {ans : Answer Hash Account} {action : Option Action}
      (hrun : Run net) (hx : x ∈ net.outstanding) (hsize : WellSized net.t.tree.depth x.query ans)
      (hsound : Sound P net x ans) (h : net.answer P accountSubtreeHeight x ans = .ok (net', action)) : Run net'

/-- The query is outstanding again. The syncer is as it was, unless its ledger
already has the goal's root: then the sync is done. -/
structure Requeued (net : Net Hash Account D) (x : Pending Hash) (net' : Net Hash Account D) : Prop where
  outstanding : net'.outstanding = net.outstanding.erase x ++ [⟨net.round, x.rootHash, x.query⟩]
  round : net'.round = net.round
  unchanged : net.t.tree.merkleRoot P ≠ x.rootHash → net'.t = net.t
  done : net.t.tree.merkleRoot P = x.rootHash → net'.t = { net.t with validityListener := some .ok }

section Step

variable {net : Net Hash Account D} {W : Addr → Option Hash} {x : Pending Hash}
  (hinv : Inv accountSubtreeHeight net W)
include hinv

theorem Inv.requeued (hgoal : net.t.desiredRoot = some x.rootHash) :
    Requeued P net x
      ({ net with outstanding := net.outstanding.erase x }.read (settle P (write net.t (x.rootHash, x.query)))
        net.round) := by
  have hqueries : ({ write net.t (x.rootHash, x.query) with queries := [] } : T Hash Account D) = net.t := by
    have hq := hinv.queries
    cases ht : net.t with
    | mk desiredRoot auxiliaryData tree queries waitingParents waitingContent validityListener =>
      rw [ht] at hq
      cases hq
      rfl
  refine ⟨?_, rfl, fun hne => ?_, fun heq => ?_⟩
  · unfold settle
    split <;> simp only [Net.read, write, hinv.queries, List.nil_append, List.map_cons, List.map_nil]
  · have hsettle : settle P (write net.t (x.rootHash, x.query)) = write net.t (x.rootHash, x.query) := by
      refine if_neg fun h => hne ?_
      exact (Option.some.inj (hgoal.symm.trans h)).symm
    rw [hsettle]
    exact hqueries
  · have hsettle : settle P (write net.t (x.rootHash, x.query)) =
        { write net.t (x.rootHash, x.query) with validityListener := some .ok } := by
      refine if_pos ?_
      exact hgoal.trans (congrArg some heq.symm)
    rw [hsettle]
    exact congrArg (fun t : T Hash Account D => { t with validityListener := some .ok }) hqueries

variable (hx : x ∈ net.outstanding) {ans : Answer Hash Account} (hsize : WellSized net.t.tree.depth x.query ans)
  (hsound : Sound P net x ans)
include hx hsize hsound

/-- The step lemma: a sound answer does not raise, and a rejected one is asked
again. -/
theorem Inv.answer :
    ∃ net' action, net.answer P accountSubtreeHeight x ans = .ok (net', action) ∧
      (∃ W', Inv accountSubtreeHeight net' W') ∧
      ∀ act, action = some act → act.rejects → Requeued P net x net' := by
  by_cases hhandled : Handled net.t x
  · obtain ⟨r, hr, houtcome⟩ := handleResult_ok P accountSubtreeHeight hinv hx hsize hsound hhandled
    have hanswer := handleAnswer_ok P accountSubtreeHeight hinv hhandled hr houtcome
    refine ⟨_, some r.2, Exn.andThen_of_ok hanswer _, ?_, fun act hact hrejects => ?_⟩
    · obtain ⟨W', hW'⟩ := hinv.outcome accountSubtreeHeight hx houtcome
      exact ⟨W', hW'.settled P accountSubtreeHeight⟩
    · cases hact
      cases houtcome with
      | @rejected action hrejects' hround =>
        have hne : ¬ (x.query = .numAccounts ∧ some action = some .fulfilledRequest) := by
          rintro ⟨-, haction⟩
          cases haction
          rcases hrejects with h | h <;> cases h
        simp only [Net.nextRound, if_neg hne]
        exact hinv.requeued P accountSubtreeHeight hhandled.1
      | accepted => rcases hrejects with h | h <;> cases h
      | counted => rcases hrejects with h | h <;> cases h
  · have hanswer := handleAnswer_ignored P accountSubtreeHeight hinv hx hhandled ans
    refine ⟨_, none, Exn.andThen_of_ok hanswer _, ⟨W, ?_⟩, fun act hact => by cases hact⟩
    have hne : ¬ (x.query = .numAccounts ∧ (none : Option Action) = some .fulfilledRequest) := fun h => by cases h.2
    simp only [Net.nextRound, if_neg hne]
    exact hinv.ignored accountSubtreeHeight x

end Step

theorem Run.inv {net : Net Hash Account D} (hrun : Run P accountSubtreeHeight net) :
    ∃ W, Inv accountSubtreeHeight net W := by
  induction hrun with
  | create mt => exact ⟨_, Inv.create accountSubtreeHeight mt⟩
  | newGoal _ h data equal ih =>
    obtain ⟨W, hinv⟩ := ih
    exact ⟨W, hinv.newGoal accountSubtreeHeight h data equal⟩
  | answer _ hx hsize hsound h ih =>
    obtain ⟨W, hinv⟩ := ih
    obtain ⟨net', action, h', hinv', -⟩ := hinv.answer P accountSubtreeHeight hx hsize hsound
    rw [h] at h'
    cases h'
    exact hinv'

/-- **On every run whose answers are sound, no sound answer to an outstanding
query raises, and a rejected one leaves the tables as they were with the query
asked again.** -/
theorem answers_survived {net : Net Hash Account D} (hrun : Run P accountSubtreeHeight net) {x : Pending Hash}
    (hx : x ∈ net.outstanding) {ans : Answer Hash Account} (hsize : WellSized net.t.tree.depth x.query ans)
    (hsound : Sound P net x ans) :
    ∃ net' action, net.answer P accountSubtreeHeight x ans = .ok (net', action) ∧
      ∀ act, action = some act → act.rejects → Requeued P net x net' := by
  obtain ⟨W, hinv⟩ := hrun.inv
  obtain ⟨net', action, h, -, hrejects⟩ := hinv.answer P accountSubtreeHeight hx hsize hsound
  exact ⟨net', action, h, hrejects⟩

/-! ### A ledger of four leaves -/

def numberHashing : Hashing Nat Nat where
  merge _ := Nat.pair
  hashAccount := Nat.succ
  emptyAccount := 0

def numberTree (accounts : List Nat) : MT Nat where
  depth := 2
  get i := accounts[i]?
  lastFilled := if accounts = [] then none else some (accounts.length - 1)

/-- The root of the ledger with the accounts 5, 6 and 7. -/
def numberGoal : Nat := (numberTree [5, 6, 7]).merkleRoot numberHashing

def numberNet : Net Nat Nat Unit := (Net.create (numberTree [])).newGoal numberGoal () fun _ _ => true

theorem numberNet_survives :
    ∃ net' action, numberNet.answer numberHashing 1 ⟨0, numberGoal, .numAccounts⟩ (.numAccounts 2 0) = .ok (net', action) ∧
      ∀ act, action = some act → act.rejects → Requeued numberHashing numberNet ⟨0, numberGoal, .numAccounts⟩ net' := by
  refine answers_survived numberHashing 1 ((Run.create (numberTree [])).newGoal numberGoal () fun _ _ => true) ?_ ?_ ?_
  · exact List.mem_singleton.2 rfl
  · exact ⟨by decide, by decide⟩
  · exact ⟨fun _ h => absurd rfl h, fun _ _ _ _ _ h => nomatch h⟩

inductive Event where
  | newGoal (h : Nat)
  | answer (x : Pending Nat) (ans : Answer Nat Nat)

/-- The events, if each answers an outstanding query and none raises. -/
def play (net : Net Nat Nat Unit) : List Event → Exn (Net Nat Nat Unit)
  | [] => .ok net
  | .newGoal h :: events => play (net.newGoal h () fun _ _ => true) events
  | .answer x ans :: events =>
    Exn.assert (x ∈ net.outstanding)
      ((net.answer numberHashing 1 x ans).andThen fun r => play r.1 events)

/-- The answer of an honest peer. -/
def honest (x : Pending Nat) : Answer Nat Nat :=
  match Responder.answerQuery numberHashing 1 (numberTree [5, 6, 7]) x.query with
  | .ok (some answer) => answer
  | _ => .contentsAre []

def asksCount (round : Nat) : Pending Nat := ⟨round, numberGoal, .numAccounts⟩

def asksRoot (round : Nat) : Pending Nat := ⟨round, numberGoal, .whatChildHashes []⟩

def asksLeft (round : Nat) : Pending Nat := ⟨round, numberGoal, .whatContents [.left]⟩

/-- An honest answer raises after a list of accounts with another hash, and
after a goal that came back. -/
theorem honest_answers_raise :
    WellSized 2 (.whatContents [.left]) (.contentsAre [9] : Answer Nat Nat) ∧
    (∃ net, play (Net.create (numberTree [])) [.newGoal numberGoal, .answer (asksCount 0) (honest (asksCount 0)),
        .answer (asksRoot 1) (honest (asksRoot 1)), .answer (asksLeft 1) (.contentsAre [9])] = .ok net ∧
      asksLeft 1 ∈ net.outstanding ∧ (net.answer numberHashing 1 (asksLeft 1) (honest (asksLeft 1))).isOk = false) ∧
    ∃ net, play (Net.create (numberTree [])) [.newGoal numberGoal, .answer (asksCount 0) (honest (asksCount 0)),
        .newGoal 1, .newGoal numberGoal, .answer (asksCount 1) (honest (asksCount 1)),
        .answer (asksRoot 1) (honest (asksRoot 1))] = .ok net ∧
      asksRoot 2 ∈ net.outstanding ∧ (net.answer numberHashing 1 (asksRoot 2) (honest (asksRoot 2))).isOk = false := by
  have hrun : ∀ (events : List Event) (x : Pending Nat), ((play (Net.create (numberTree [])) events).andThen fun net =>
      Exn.assert (x ∈ net.outstanding ∧ (net.answer numberHashing 1 x (honest x)).isOk = false) (.ok net)).isOk = true →
      ∃ net, play (Net.create (numberTree [])) events = .ok net ∧ x ∈ net.outstanding ∧
        (net.answer numberHashing 1 x (honest x)).isOk = false := by
    intro events x h
    obtain ⟨net', h⟩ := Exn.exists_of_isOk h
    obtain ⟨net, hplay, h⟩ := Exn.andThen_eq_ok.1 h
    exact ⟨net, hplay, of_decide_eq_true (Exn.assert_eq_ok.1 h).1⟩
  refine ⟨?_, hrun _ _ ?_, hrun _ _ ?_⟩
  · show 1 ≤ 2 ^ 1
    decide
  · decide +kernel
  · decide +kernel

end Mina.SyncableLedger
