/-
The syncer and the queries that are under way.

Every query it writes stays outstanding until it is answered; answers come in
any order, and the goal may change at any time. An outstanding query has the
round it was asked in: a round begins when an answer to `Num_accounts` is
accepted, which clears the tables. `Outcome` says what handling an answer can
do, as long as the tables still have what was asked for and no list of
accounts is taken that has another hash.
-/
import Mina.SyncableLedger.Tables

namespace Mina.SyncableLedger

variable {Hash Account D : Type} [DecidableEq Hash] (P : Hashing Hash Account) (accountSubtreeHeight : Nat)

structure Pending (Hash : Type) where
  round : Nat
  rootHash : Hash
  query : Query
deriving DecidableEq

structure Net (Hash Account D : Type) where
  t : T Hash Account D
  round : Nat
  outstanding : List (Pending Hash)
  /-- All queries so far. -/
  issued : List Query

namespace Net

def create (mt : MT Account) : Net Hash Account D where
  t := SyncableLedger.create mt
  round := 0
  outstanding := []
  issued := []

omit [DecidableEq Hash] in
/-- What was written to the pipe is read from it. -/
def read (net : Net Hash Account D) (t : T Hash Account D) (round : Nat) : Net Hash Account D where
  t := { t with queries := [] }
  round
  outstanding := net.outstanding ++ t.queries.map fun q => ⟨round, q.1, q.2⟩
  issued := net.issued ++ t.queries.map (·.2)

def newGoal (net : Net Hash Account D) (h : Hash) (data : D) (equal : D → D → Bool) : Net Hash Account D :=
  net.read (SyncableLedger.newGoal net.t h data equal).1 net.round

def nextRound (round : Nat) (query : Query) (action : Option Action) : Nat :=
  if query = .numAccounts ∧ action = some .fulfilledRequest then round + 1 else round

theorem nextRound_of_ne {round : Nat} {query : Query} {action : Option Action} (h : query ≠ .numAccounts) :
    nextRound round query action = round := if_neg fun hnum => h hnum.1

/-- An outstanding query is answered. -/
def answer (net : Net Hash Account D) (x : Pending Hash) (ans : Answer Hash Account) :
    Exn (Net Hash Account D × Option Action) :=
  (handleAnswer P accountSubtreeHeight net.t x.rootHash x.query ans).andThen fun r =>
    .ok ({ net with outstanding := net.outstanding.erase x }.read r.1 (nextRound net.round x.query r.2), r.2)

end Net

/-- No more accounts than the subtree has leaves, and a count between one and
the number of leaves. -/
def WellSized (d : Nat) : Query → Answer Hash Account → Prop
  | .whatContents a, .contentsAre accounts => accounts.length ≤ 2 ^ Addr.height d a
  | .numAccounts, .numAccounts count _ => 1 ≤ count ∧ count ≤ 2 ^ d
  | _, _ => True

/-- The answer is not ignored. -/
def Handled (t : T Hash Account D) (x : Pending Hash) : Prop :=
  t.desiredRoot = some x.rootHash ∧ alreadyDone t = false

/-! ## The invariant -/

/-- Two outstanding queries of a round ask different things. -/
def Apart (round : Nat) (x y : Pending Hash) : Prop :=
  x.round = round → y.round = round → x.query = y.query → x.query = .numAccounts

omit [DecidableEq Hash] in
theorem Apart.symm {round : Nat} {x y : Pending Hash} (h : Apart round x y) : Apart round y x := by
  intro hy hx heq
  exact heq.trans (h hx hy heq.symm)

/-- The addresses that are waited for are in the tree, and none is above
another. -/
structure Frontier (d : Nat) (W : Addr → Option Hash) : Prop where
  depth : ∀ a, (W a).isSome = true → a.length ≤ d
  antichain : ∀ a b, (W a).isSome = true → (W b).isSome = true → a <+: b → a = b

structure Inv (net : Net Hash Account D) (W : Addr → Option Hash) : Prop where
  tables : net.t = withTables accountSubtreeHeight net.t W
  queries : net.t.queries = []
  goal : ∀ x ∈ net.outstanding, net.t.desiredRoot.isSome = true
  listener : ∀ v, net.t.validityListener = some v → v = .ok
  frontier : Frontier net.t.tree.depth W
  rounds : ∀ x ∈ net.outstanding, x.round ≤ net.round
  current : ∀ x ∈ net.outstanding, x.round = net.round → x.query = .numAccounts ∨
    ∃ a, x.query = queryOf accountSubtreeHeight net.t.tree.depth a ∧ (W a).isSome = true
  apart : net.outstanding.Pairwise (Apart net.round)

namespace Frontier

variable {d : Nat} {W : Addr → Option Hash} (hf : Frontier d W)
include hf

omit [DecidableEq Hash] in
/-- Nothing is waited for below an address that is. -/
theorem child_none {a : Addr} (ha : (W a).isSome = true) (dir : Direction) : W (a ++ [dir]) = none := by
  rw [← Option.not_isSome_iff_eq_none]
  intro hchild
  have heq := hf.antichain a (a ++ [dir]) ha hchild (List.prefix_append a [dir])
  have hlen := congrArg List.length heq
  simp only [List.length_append, List.length_singleton] at hlen
  omega

omit [DecidableEq Hash] in
/-- An address is replaced by some of its children. -/
theorem expand {a : Addr} (ha : (W a).isSome = true) {l : List (Addr × Hash)}
    (hl : ∀ p ∈ l, (∃ dir, p.1 = a ++ [dir]) ∧ a.length < d) : Frontier d (expectAll (Function.update W a none) l) := by
  have hcases : ∀ {b}, (expectAll (Function.update W a none) l b).isSome = true →
      (∃ dir, b = a ++ [dir] ∧ a.length < d) ∨ b ≠ a ∧ (W b).isSome = true := by
    intro b hb
    rcases expectAll_isSome.1 hb with ⟨p, hp, rfl⟩ | hb
    · obtain ⟨⟨dir, hdir⟩, hlt⟩ := hl p hp
      exact Or.inl ⟨dir, hdir, hlt⟩
    · by_cases hba : b = a
      · rw [hba, Function.update_self] at hb
        cases hb
      · rw [Function.update_of_ne hba] at hb
        exact Or.inr ⟨hba, hb⟩
  refine ⟨fun b hb => ?_, fun b c hb hc hbc => ?_⟩
  · rcases hcases hb with ⟨dir, rfl, hlt⟩ | ⟨-, hb⟩
    · rw [List.length_append, List.length_singleton]
      omega
    · exact hf.depth b hb
  · rcases hcases hb with ⟨dir, rfl, -⟩ | ⟨hba, hb⟩
    · rcases hcases hc with ⟨dir', rfl, -⟩ | ⟨hca, hc⟩
      · exact hbc.eq_of_length (by simp)
      · exact absurd (hf.antichain a c ha hc ((List.prefix_append a [dir]).trans hbc)).symm hca
    · rcases hcases hc with ⟨dir', rfl, -⟩ | ⟨-, hc⟩
      · rcases List.prefix_concat_iff.1 hbc with heq | hprefix
        · exact heq
        · exact absurd (hf.antichain b a hb ha hprefix) hba
      · exact hf.antichain b c hb hc hbc

end Frontier

/-! ## What handling an answer does -/

/-- The condition under which handling an answer goes well: what was asked is
of this round, and no accounts are taken that hash to something else than
expected. -/
structure Sound (net : Net Hash Account D) (x : Pending Hash) (ans : Answer Hash Account) : Prop where
  current : Handled net.t x → x.query ≠ .numAccounts → x.round = net.round
  content : Handled net.t x → ∀ a accounts expected tree', x.query = .whatContents a → ans = .contentsAre accounts →
    net.t.waitingContent a = some expected → net.t.tree.setAllAccountsRootedAtExn a accounts = .ok tree' →
    tree'.hashAt P a = expected

def Action.rejects (action : Action) : Prop := action = .sentBadHash ∨ action = .violatedProtocol

/-- What `handle_result` can do for a query, with the tables `W`. -/
inductive Outcome (net : Net Hash Account D) (W : Addr → Option Hash) (x : Pending Hash) :
    T Hash Account D × Action → Prop where
  /-- The answer is rejected, and the query is queued again. -/
  | rejected {action : Action} (hrejects : action.rejects)
      (hround : x.query = .numAccounts ∨ x.round = net.round) :
      Outcome net W x (write net.t (x.rootHash, x.query), action)
  /-- An address is done, or some of its children are asked for. -/
  | accepted {a : Addr} {l : List (Addr × Hash)} {tree' : MT Account}
      (hquery : x.query = queryOf accountSubtreeHeight net.t.tree.depth a) (hround : x.round = net.round)
      (hW : (W a).isSome = true) (hdepth : tree'.depth = net.t.tree.depth) (hnodup : (l.map (·.1)).Nodup)
      (hl : ∀ p ∈ l, (∃ dir, p.1 = a ++ [dir]) ∧ a.length < net.t.tree.depth) :
      Outcome net W x
        (withTables accountSubtreeHeight
          (writeAll accountSubtreeHeight { net.t with tree := tree' } x.rootHash l)
          (expectAll (Function.update W a none) l), .fulfilledRequest)
  /-- The number of accounts is known, and the root is asked for. -/
  | counted (hquery : x.query = .numAccounts) :
      Outcome net W x
        (write (withTables accountSubtreeHeight net.t (Function.update (fun _ => none) Addr.root (some x.rootHash)))
          (x.rootHash, queryOf accountSubtreeHeight net.t.tree.depth Addr.root), .fulfilledRequest)

section Handle

variable {net : Net Hash Account D} {W : Addr → Option Hash} (hinv : Inv accountSubtreeHeight net W) {x : Pending Hash}
  (hx : x ∈ net.outstanding) {ans : Answer Hash Account} (hsize : WellSized net.t.tree.depth x.query ans)
  (hsound : Sound P net x ans) (hhandled : Handled net.t x)
include hinv hx hsize hsound hhandled

omit [DecidableEq Hash] hsize in
/-- What was asked about an address is still expected. -/
theorem Inv.expected (hquery : x.query ≠ .numAccounts) :
    ∃ a e, x.query = queryOf accountSubtreeHeight net.t.tree.depth a ∧ W a = some e := by
  rcases hinv.current x hx (hsound.current hhandled hquery) with hnum | ⟨a, hq, ha⟩
  · exact absurd hnum hquery
  · obtain ⟨e, he⟩ := Option.isSome_iff_exists.1 ha
    exact ⟨a, e, hq, he⟩

theorem handleResult_ok :
    ∃ r, handleResult P accountSubtreeHeight net.t x.rootHash x.query ans = .ok r ∧
      Outcome accountSubtreeHeight net W x r := by
  have hcur : x.query = .numAccounts ∨ x.round = net.round := by
    by_cases hquery : x.query = .numAccounts
    · exact Or.inl hquery
    · exact Or.inr (hsound.current hhandled hquery)
  have hviolated : Outcome accountSubtreeHeight net W x (write net.t (x.rootHash, x.query), .violatedProtocol) :=
    .rejected (Or.inr rfl) hcur
  have hbad : Outcome accountSubtreeHeight net W x (write net.t (x.rootHash, x.query), .sentBadHash) :=
    .rejected (Or.inl rfl) hcur
  cases hq : x.query with
  | whatChildHashes a =>
    cases ans with
    | contentsAre accounts => exact ⟨_, rfl, hq ▸ hviolated⟩
    | numAccounts count contentRoot => exact ⟨_, rfl, hq ▸ hviolated⟩
    | childHashesAre lh rh =>
      obtain ⟨b, e, hb, he⟩ := hinv.expected P accountSubtreeHeight hx hsound hhandled (by rw [hq]; simp)
      obtain ⟨rfl, ha⟩ := eq_of_queryOf_children accountSubtreeHeight (hb.symm.trans hq)
      have hlt : b.length < net.t.tree.depth := by omega
      have hround : x.round = net.round := hsound.current hhandled (by rw [hq]; simp)
      have hresult := handleResult_children P accountSubtreeHeight hhandled.1 he
        (fun dir => hinv.frontier.child_none (by rw [he]; rfl) dir) ha lh rh
      rw [← hinv.tables] at hresult
      split at hresult
      next =>
        refine ⟨_, hresult, ?_⟩
        exact .accepted hb hround (by rw [he]; rfl) rfl (stale_nodup P net.t.tree b lh rh)
          fun p hp => ⟨stale_child P hp, hlt⟩
      next => exact ⟨_, hresult, hq ▸ hbad⟩
  | whatContents a =>
    cases ans with
    | childHashesAre lh rh => exact ⟨_, rfl, hq ▸ hviolated⟩
    | numAccounts count contentRoot => exact ⟨_, rfl, hq ▸ hviolated⟩
    | contentsAre accounts =>
      obtain ⟨b, e, hb, he⟩ := hinv.expected P accountSubtreeHeight hx hsound hhandled (by rw [hq]; simp)
      obtain ⟨rfl, ha⟩ := eq_of_queryOf_contents accountSubtreeHeight (hb.symm.trans hq)
      have hle : b.length ≤ net.t.tree.depth := hinv.frontier.depth b (by rw [he]; rfl)
      have hround : x.round = net.round := hsound.current hhandled (by rw [hq]; simp)
      rw [hq] at hsize
      obtain ⟨tree', hset, hbelow⟩ := MT.setAllAccountsRootedAtExn_ok hle hsize
      have hwait : net.t.waitingContent b = some e := by
        rw [hinv.tables]
        simp only [withTables, if_neg ha, he]
      have hhash := hsound.content hhandled b accounts e tree' hq rfl hwait hset
      have hresult := handleResult_contents P accountSubtreeHeight (g := x.rootHash) he ha hle hset hbelow.depth hhash
      rw [← hinv.tables] at hresult
      refine ⟨_, hresult, ?_⟩
      have haccepted : Outcome accountSubtreeHeight net W x _ :=
        .accepted (l := []) hb hround (by rw [he]; rfl) hbelow.depth List.nodup_nil (by simp)
      rw [writeAll, List.map_nil, List.append_nil] at haccepted
      exact haccepted
  | numAccounts =>
    cases ans with
    | childHashesAre lh rh => exact ⟨_, rfl, hq ▸ hviolated⟩
    | contentsAre accounts => exact ⟨_, rfl, hq ▸ hviolated⟩
    | numAccounts count contentRoot =>
      rw [hq] at hsize
      have hresult := handleResult_count P accountSubtreeHeight (W := W) hhandled.1 hsize.1 hsize.2 contentRoot
      rw [← hinv.tables] at hresult
      split at hresult
      next => exact ⟨_, hresult, .counted hq⟩
      next => exact ⟨_, hresult, hq ▸ hbad⟩

end Handle

/-! ## What an answer does -/

/-- The end of `handle_answer`: the goal is reached if the root is the goal's. -/
def settle (t : T Hash Account D) : T Hash Account D :=
  if t.desiredRoot = some (t.tree.merkleRoot P) then { t with validityListener := some .ok } else t

section Answer

variable {net : Net Hash Account D} {W : Addr → Option Hash} (hinv : Inv accountSubtreeHeight net W) {x : Pending Hash}
  (hx : x ∈ net.outstanding)
include hinv

omit [DecidableEq Hash] in
theorem Inv.listener_none (hhandled : Handled net.t x) : net.t.validityListener = none := by
  cases hv : net.t.validityListener with
  | none => rfl
  | some v =>
    have hdone := hhandled.2
    rw [alreadyDone, hv, hinv.listener v hv] at hdone
    cases hdone

theorem handleAnswer_ok (hhandled : Handled net.t x) {ans : Answer Hash Account} {r : T Hash Account D × Action}
    (hr : handleResult P accountSubtreeHeight net.t x.rootHash x.query ans = .ok r)
    (houtcome : Outcome accountSubtreeHeight net W x r) :
    handleAnswer P accountSubtreeHeight net.t x.rootHash x.query ans = .ok (settle P r.1, some r.2) := by
  have hlistener := hinv.listener_none accountSubtreeHeight hhandled
  have hframe : r.1.desiredRoot = some x.rootHash ∧ r.1.validityListener = none := by
    cases houtcome with
    | rejected => exact ⟨hhandled.1, hlistener⟩
    | accepted => exact ⟨hhandled.1, hlistener⟩
    | counted => exact ⟨hhandled.1, hlistener⟩
  have hdesired : desiredRootExn net.t = .ok x.rootHash := Exn.valueExn_eq_ok.2 hhandled.1
  have hdesired' : desiredRootExn r.1 = .ok x.rootHash := Exn.valueExn_eq_ok.2 hframe.1
  rw [handleAnswer, hdesired, Exn.andThen_ok, if_neg (not_not.2 rfl), hhandled.2, if_neg Bool.false_ne_true, hr,
    Exn.andThen_ok, hdesired', Exn.andThen_ok]
  by_cases hroot : x.rootHash = r.1.tree.merkleRoot P
  · have hsettle : settle P r.1 = { r.1 with validityListener := some .ok } := if_pos (by rw [hframe.1, hroot])
    rw [if_pos hroot, hsettle, allDone, hdesired', Exn.andThen_ok, if_neg (not_not.2 hroot.symm), hframe.2]
    rfl
  · have hsettle : settle P r.1 = r.1 := if_neg fun h => hroot (Option.some.inj (hframe.1.symm.trans h))
    rw [if_neg hroot, hsettle]

include hx

theorem handleAnswer_ignored (hhandled : ¬ Handled net.t x) (ans : Answer Hash Account) :
    handleAnswer P accountSubtreeHeight net.t x.rootHash x.query ans = .ok (net.t, none) := by
  obtain ⟨g, hg⟩ := Option.isSome_iff_exists.1 (hinv.goal x hx)
  have hdesired : desiredRootExn net.t = .ok g := Exn.valueExn_eq_ok.2 hg
  rw [handleAnswer, hdesired, Exn.andThen_ok]
  by_cases hne : x.rootHash = g
  · have hdone : alreadyDone net.t = true := by
      by_contra hnot
      exact hhandled ⟨by rw [hg, hne], Bool.not_eq_true _ ▸ hnot⟩
    rw [if_neg (not_not.2 hne), hdone, if_pos rfl]
  · rw [if_pos hne]

/-- The other outstanding queries of the round ask something else. -/
theorem Inv.apart_erase : ∀ y ∈ net.outstanding.erase x, Apart net.round x y := by
  have hperm := List.perm_cons_erase hx
  have hpair := (hperm.pairwise_iff fun h => Apart.symm h).1 hinv.apart
  exact (List.pairwise_cons.1 hpair).1

end Answer

/-! ## The invariant is kept -/

section Kept

variable {net : Net Hash Account D} {W : Addr → Option Hash} {x : Pending Hash}

omit [DecidableEq Hash] in
theorem Inv.of_outstanding (out : List (Pending Hash)) (hout : net.outstanding = out)
    (tables : net.t = withTables accountSubtreeHeight net.t W) (queries : net.t.queries = [])
    (goal : ∀ y ∈ out, net.t.desiredRoot.isSome = true) (listener : ∀ v, net.t.validityListener = some v → v = .ok)
    (frontier : Frontier net.t.tree.depth W) (rounds : ∀ y ∈ out, y.round ≤ net.round)
    (current : ∀ y ∈ out, y.round = net.round → y.query = .numAccounts ∨
      ∃ a, y.query = queryOf accountSubtreeHeight net.t.tree.depth a ∧ (W a).isSome = true)
    (apart : out.Pairwise (Apart net.round)) : Inv accountSubtreeHeight net W := by
  subst hout
  exact ⟨tables, queries, goal, listener, frontier, rounds, current, apart⟩

theorem Inv.settled {t : T Hash Account D} {round : Nat} (hinv : Inv accountSubtreeHeight (net.read t round) W) :
    Inv accountSubtreeHeight (net.read (settle P t) round) W := by
  unfold settle
  split
  · refine ⟨?_, hinv.queries, hinv.goal, fun v hv => ?_, hinv.frontier, hinv.rounds, hinv.current, hinv.apart⟩
    · exact congrArg (fun t : T Hash Account D => { t with validityListener := some .ok }) hinv.tables
    · cases hv
      rfl
  · exact hinv

omit [DecidableEq Hash] in
theorem Inv.create (mt : MT Account) :
    Inv accountSubtreeHeight (Net.create mt : Net Hash Account D) fun _ => none := by
  refine ⟨?_, rfl, fun x hx => absurd hx List.not_mem_nil, fun v hv => ?_,
    ⟨fun a ha => ?_, fun a b ha => ?_⟩, fun x hx => absurd hx List.not_mem_nil,
    fun x hx => absurd hx List.not_mem_nil, List.Pairwise.nil⟩
  · refine congrArg₂ (fun waitingParents waitingContent =>
      ({ SyncableLedger.create mt with waitingParents, waitingContent } : T Hash Account D)) ?_ ?_ <;>
      funext a <;> exact (ite_self _).symm
  · cases hv
  · cases ha
  · cases ha

variable (hinv : Inv accountSubtreeHeight net W)
include hinv

theorem Inv.newGoal (h : Hash) (data : D) (equal : D → D → Bool) :
    Inv accountSubtreeHeight (net.newGoal h data equal) W := by
  have hsame : ∀ auxiliaryData, Inv accountSubtreeHeight (net.read { net.t with auxiliaryData } net.round) W := by
    intro auxiliaryData
    refine Inv.of_outstanding _ net.outstanding ?_ ?_ rfl hinv.goal hinv.listener hinv.frontier hinv.rounds
      hinv.current hinv.apart
    · simp only [Net.read, hinv.queries, List.map_nil, List.append_nil]
    · exact congrArg (fun t : T Hash Account D => { t with auxiliaryData, queries := [] }) hinv.tables
  unfold Net.newGoal SyncableLedger.newGoal
  split
  · refine Inv.of_outstanding _ (net.outstanding ++ [⟨net.round, h, .numAccounts⟩]) ?_ ?_ rfl (fun _ _ => rfl)
      (fun v hv => by cases hv) hinv.frontier (fun y hy => ?_) (fun y hy hround => ?_) ?_
    · simp only [Net.read, write, hinv.queries, List.nil_append, List.map_cons, List.map_nil]
    · exact congrArg (fun t : T Hash Account D =>
        { t with validityListener := none, desiredRoot := some h, auxiliaryData := some data, queries := [] }) hinv.tables
    · rcases List.mem_append.1 hy with hy | hy
      · exact hinv.rounds y hy
      · rw [List.mem_singleton.1 hy]
        exact le_refl _
    · rcases List.mem_append.1 hy with hy | hy
      · exact hinv.current y hy hround
      · rw [List.mem_singleton.1 hy]
        exact Or.inl rfl
    · refine List.pairwise_append.2 ⟨hinv.apart, List.pairwise_singleton _ _, fun y _ z hz => ?_⟩
      rw [List.mem_singleton.1 hz]
      exact fun _ _ heq => heq
  · split
    · exact hsame net.t.auxiliaryData
    · exact hsame (some data)

/-- An ignored answer. -/
theorem Inv.ignored (x : Pending Hash) :
    Inv accountSubtreeHeight ({ net with outstanding := net.outstanding.erase x }.read net.t net.round) W := by
  refine Inv.of_outstanding _ (net.outstanding.erase x) ?_ ?_ rfl
    (fun y hy => hinv.goal y (List.mem_of_mem_erase hy)) hinv.listener hinv.frontier
    (fun y hy => hinv.rounds y (List.mem_of_mem_erase hy)) (fun y hy => hinv.current y (List.mem_of_mem_erase hy))
    (hinv.apart.sublist List.erase_sublist)
  · simp only [Net.read, hinv.queries, List.map_nil, List.append_nil]
  · exact congrArg (fun t : T Hash Account D => { t with queries := [] }) hinv.tables

variable (hx : x ∈ net.outstanding)
include hx

/-- A rejected answer: the query is asked again. -/
theorem Inv.rejected (hround : x.query = .numAccounts ∨ x.round = net.round) :
    Inv accountSubtreeHeight
      ({ net with outstanding := net.outstanding.erase x }.read (write net.t (x.rootHash, x.query)) net.round) W := by
  refine Inv.of_outstanding _ (net.outstanding.erase x ++ [⟨net.round, x.rootHash, x.query⟩]) ?_ ?_ rfl
    (fun _ _ => hinv.goal x hx) hinv.listener hinv.frontier (fun y hy => ?_) (fun y hy hround' => ?_) ?_
  · simp only [Net.read, write, hinv.queries, List.nil_append, List.map_cons, List.map_nil]
  · exact congrArg (fun t : T Hash Account D => { t with queries := [] }) hinv.tables
  · rcases List.mem_append.1 hy with hy | hy
    · exact hinv.rounds y (List.mem_of_mem_erase hy)
    · rw [List.mem_singleton.1 hy]
      exact le_refl _
  · rcases List.mem_append.1 hy with hy | hy
    · exact hinv.current y (List.mem_of_mem_erase hy) hround'
    · rw [List.mem_singleton.1 hy]
      rcases hround with hnum | hround
      · exact Or.inl hnum
      · exact hinv.current x hx hround
  · refine List.pairwise_append.2 ⟨hinv.apart.sublist List.erase_sublist, List.pairwise_singleton _ _,
      fun y hy z hz => ?_⟩
    rw [List.mem_singleton.1 hz]
    intro hy' _ heq
    rcases hround with hnum | hround
    · exact heq.trans hnum
    · exact heq.trans (hinv.apart_erase accountSubtreeHeight hx y hy hround hy' heq.symm)

/-- An address is done, or some of its children are asked for. -/
theorem Inv.accepted {a : Addr} {l : List (Addr × Hash)} {tree' : MT Account}
    (hquery : x.query = queryOf accountSubtreeHeight net.t.tree.depth a) (hround : x.round = net.round)
    (hW : (W a).isSome = true) (hdepth : tree'.depth = net.t.tree.depth) (hnodup : (l.map (·.1)).Nodup)
    (hl : ∀ p ∈ l, (∃ dir, p.1 = a ++ [dir]) ∧ a.length < net.t.tree.depth) :
    Inv accountSubtreeHeight
      ({ net with outstanding := net.outstanding.erase x }.read
        (withTables accountSubtreeHeight (writeAll accountSubtreeHeight { net.t with tree := tree' } x.rootHash l)
          (expectAll (Function.update W a none) l)) net.round) (expectAll (Function.update W a none) l) := by
  have hother : ∀ y ∈ net.outstanding.erase x, y.round = net.round → y.query = .numAccounts ∨
      ∃ b, y.query = queryOf accountSubtreeHeight net.t.tree.depth b ∧ b ≠ a ∧ (W b).isSome = true := by
    intro y hy hround'
    rcases hinv.current y (List.mem_of_mem_erase hy) hround' with hnum | ⟨b, hb, hWb⟩
    · exact Or.inl hnum
    · refine Or.inr ⟨b, hb, ?_, hWb⟩
      rintro rfl
      have hnum := hinv.apart_erase accountSubtreeHeight hx y hy hround hround' (hquery.trans hb.symm)
      exact queryOf_ne_numAccounts accountSubtreeHeight _ _ (hquery.symm.trans hnum)
  refine Inv.of_outstanding _
    (net.outstanding.erase x ++
      l.map fun p => ⟨net.round, x.rootHash, queryOf accountSubtreeHeight net.t.tree.depth p.1⟩)
    ?_ rfl rfl (fun _ _ => hinv.goal x hx) hinv.listener ?_ (fun y hy => ?_) (fun y hy hround' => ?_) ?_
  · simp only [Net.read, withTables, writeAll, hinv.queries, List.nil_append, List.map_map, hdepth]
    rfl
  · have hfrontier := hinv.frontier.expand hW hl
    rw [← hdepth] at hfrontier
    exact hfrontier
  · rcases List.mem_append.1 hy with hy | hy
    · exact hinv.rounds y (List.mem_of_mem_erase hy)
    · obtain ⟨p, -, rfl⟩ := List.mem_map.1 hy
      exact le_refl _
  · show y.query = .numAccounts ∨ ∃ b, y.query = queryOf accountSubtreeHeight tree'.depth b ∧ _
    rw [hdepth]
    rcases List.mem_append.1 hy with hy | hy
    · rcases hother y hy hround' with hnum | ⟨b, hb, hne, hWb⟩
      · exact Or.inl hnum
      · refine Or.inr ⟨b, hb, expectAll_isSome.2 (Or.inr ?_)⟩
        rw [Function.update_of_ne hne]
        exact hWb
    · obtain ⟨p, hp, rfl⟩ := List.mem_map.1 hy
      exact Or.inr ⟨p.1, rfl, expectAll_isSome.2 (Or.inl ⟨p, hp, rfl⟩)⟩
  · refine List.pairwise_append.2 ⟨hinv.apart.sublist List.erase_sublist, ?_, fun y hy z hz => ?_⟩
    · rw [List.pairwise_map]
      refine (List.pairwise_map.1 hnodup).imp fun hne _ _ heq => ?_
      exact absurd (queryOf_injective accountSubtreeHeight heq) hne
    · obtain ⟨p, hp, rfl⟩ := List.mem_map.1 hz
      intro hround' _ heq
      rcases hother y hy hround' with hnum | ⟨b, hb, -, hWb⟩
      · exact hnum
      · obtain ⟨⟨dir, hdir⟩, -⟩ := hl p hp
        have hbp := queryOf_injective accountSubtreeHeight (hb.symm.trans heq)
        rw [hbp, hdir, hinv.frontier.child_none hW dir] at hWb
        cases hWb

/-- A new round begins. -/
theorem Inv.counted :
    Inv accountSubtreeHeight
      ({ net with outstanding := net.outstanding.erase x }.read
        (write (withTables accountSubtreeHeight net.t (Function.update (fun _ => none) Addr.root (some x.rootHash)))
          (x.rootHash, queryOf accountSubtreeHeight net.t.tree.depth Addr.root)) (net.round + 1))
      (Function.update (fun _ => none) Addr.root (some x.rootHash)) := by
  have hroot : ∀ {a}, (Function.update (fun _ => none) Addr.root (some x.rootHash) a).isSome = true → a = Addr.root := by
    intro a ha
    by_contra hne
    rw [Function.update_of_ne hne] at ha
    cases ha
  have hold : ∀ y ∈ net.outstanding.erase x, y.round ≠ net.round + 1 := by
    intro y hy
    have := hinv.rounds y (List.mem_of_mem_erase hy)
    omega
  refine Inv.of_outstanding _
    (net.outstanding.erase x ++
      [⟨net.round + 1, x.rootHash, queryOf accountSubtreeHeight net.t.tree.depth Addr.root⟩])
    ?_ rfl rfl (fun _ _ => hinv.goal x hx) hinv.listener
    ⟨fun a ha => by rw [hroot ha]; exact Nat.zero_le _, fun a b ha hb _ => (hroot ha).trans (hroot hb).symm⟩
    (fun y hy => ?_) (fun y hy hround' => ?_) ?_
  · simp only [Net.read, write, withTables, hinv.queries, List.nil_append, List.map_cons, List.map_nil]
  · rcases List.mem_append.1 hy with hy | hy
    · exact (hinv.rounds y (List.mem_of_mem_erase hy)).trans (Nat.le_succ _)
    · rw [List.mem_singleton.1 hy]
      exact le_refl _
  · rcases List.mem_append.1 hy with hy | hy
    · exact absurd hround' (hold y hy)
    · rw [List.mem_singleton.1 hy]
      exact Or.inr ⟨Addr.root, rfl, by rw [Function.update_self]; rfl⟩
  · refine List.pairwise_append.2 ⟨?_, List.pairwise_singleton _ _, fun y hy z _ hround' => absurd hround' (hold y hy)⟩
    refine List.Pairwise.imp_of_mem (fun hy _ _ hround' => absurd hround' (hold _ hy))
      (hinv.apart.sublist List.erase_sublist)

end Kept

/-- Handling an answer keeps the invariant. -/
theorem Inv.outcome {net : Net Hash Account D} {W : Addr → Option Hash} {x : Pending Hash}
    (hinv : Inv accountSubtreeHeight net W) (hx : x ∈ net.outstanding) {r : T Hash Account D × Action}
    (houtcome : Outcome accountSubtreeHeight net W x r) :
    ∃ W', Inv accountSubtreeHeight
      ({ net with outstanding := net.outstanding.erase x }.read r.1 (Net.nextRound net.round x.query (some r.2))) W' := by
  cases houtcome with
  | @rejected action hrejects hround =>
    have hne : ¬ (x.query = .numAccounts ∧ some action = some .fulfilledRequest) := by
      rintro ⟨-, haction⟩
      cases haction
      rcases hrejects with h | h <;> cases h
    refine ⟨W, ?_⟩
    rw [Net.nextRound, if_neg hne]
    exact hinv.rejected accountSubtreeHeight hx hround
  | @accepted a l tree' hquery hround hW hdepth hnodup hl =>
    have hne : ¬ (x.query = .numAccounts ∧ some Action.fulfilledRequest = some .fulfilledRequest) := by
      rintro ⟨hnum, -⟩
      exact queryOf_ne_numAccounts accountSubtreeHeight _ _ (hquery.symm.trans hnum)
    refine ⟨expectAll (Function.update W a none) l, ?_⟩
    rw [Net.nextRound, if_neg hne]
    exact hinv.accepted accountSubtreeHeight hx hquery hround hW hdepth hnodup hl
  | counted hquery =>
    refine ⟨Function.update (fun _ => none) Addr.root (some x.rootHash), ?_⟩
    rw [Net.nextRound, if_pos ⟨hquery, rfl⟩]
    exact hinv.counted accountSubtreeHeight hx

end Mina.SyncableLedger
