/-
The runs of one goal whose answers are honest, and where they end.

After the number of accounts is answered, `Converging` holds and every answer
keeps it. No address is asked for twice, so a run has no more answers than a
tree has addresses, and one; when nothing is outstanding any more, nothing is
waited for, and every leaf is the target's.
-/
import Mina.SyncableLedger.Converge

namespace Mina.SyncableLedger

variable {Hash Account D : Type} [DecidableEq Hash] (P : Hashing Hash Account) (accountSubtreeHeight : Nat)

/-! ## Runs -/

/-- A new syncer that was given the target's root as its goal. -/
def Net.start (target mt : MT Account) (data : D) (equal : D → D → Bool) : Net Hash Account D :=
  (Net.create mt).newGoal (target.merkleRoot P) data equal

/-- The net after a number of answers to the queries of one goal, each the
answer of a responder with the target. -/
inductive HonestRun (target mt : MT Account) (data : D) (equal : D → D → Bool) : Nat → Net Hash Account D → Prop where
  | start : HonestRun target mt data equal 0 (Net.start P target mt data equal)
  | answer {k : Nat} {net net' : Net Hash Account D} {x : Pending Hash} {ans : Answer Hash Account}
      {action : Option Action} (hrun : HonestRun target mt data equal k net) (hx : x ∈ net.outstanding)
      (hanswer : Responder.answerQuery P accountSubtreeHeight target x.query = .ok (some ans))
      (h : net.answer P accountSubtreeHeight x ans = .ok (net', action)) : HonestRun target mt data equal (k + 1) net'

def Query.address : Query → Option Addr
  | .whatChildHashes a => some a
  | .whatContents a => some a
  | .numAccounts => none

omit [DecidableEq Hash] in
theorem address_queryOf (d : Nat) (a : Addr) : (queryOf accountSubtreeHeight d a).address = some a := by
  unfold queryOf
  split <;> rfl

/-- Every query that was issued is outstanding or was answered. -/
theorem Net.answer_length {net net' : Net Hash Account D} {x : Pending Hash} (hx : x ∈ net.outstanding)
    {ans : Answer Hash Account} {action : Option Action}
    (h : net.answer P accountSubtreeHeight x ans = .ok (net', action)) :
    net'.outstanding.length + net.issued.length + 1 = net'.issued.length + net.outstanding.length := by
  obtain ⟨r, -, h⟩ := Exn.andThen_eq_ok.1 h
  cases h
  have hpos := List.length_pos_of_mem hx
  simp only [Net.read, List.length_append, List.length_map, List.length_erase_of_mem hx]
  omega

theorem HonestRun.length {target mt : MT Account} {data : D} {equal : D → D → Bool} {k : Nat}
    {net : Net Hash Account D} (hrun : HonestRun P accountSubtreeHeight target mt data equal k net) :
    k + net.outstanding.length = net.issued.length := by
  induction hrun with
  | start => rfl
  | answer _ hx _ h ih =>
    have hlen := Net.answer_length P accountSubtreeHeight hx h
    omega

/-! ## Steps -/

section Step

variable {P accountSubtreeHeight} {target mt : MT Account} {n : Nat} (ht : Filled target n) (hn : n ≤ 2 ^ target.depth)

section Converging

variable {net : Net Hash Account D} {W : Addr → Option Hash} {log : List Addr}
  (h : Converging P accountSubtreeHeight target n net W log) {x : Pending Hash} (hx : x ∈ net.outstanding)
include ht hn h hx

omit [DecidableEq Hash] in
/-- The responder has an answer. -/
theorem Converging.honest : ∃ ans, Responder.answerQuery P accountSubtreeHeight target x.query = .ok (some ans) := by
  obtain ⟨a, hquery, -, hle, hfirst⟩ := h.query hx
  rw [hquery, queryOf]
  split
  next hlt => exact ⟨_, Responder.answer_children P accountSubtreeHeight (by omega)⟩
  next hnot =>
    have hheight : Addr.height target.depth a ≤ accountSubtreeHeight := by
      rw [Addr.height, Addr.depth]
      omega
    obtain ⟨l, hl, -⟩ := Responder.answer_contents P accountSubtreeHeight ht hn hle hheight hfirst
    exact ⟨_, hl⟩

/-- The step lemma: the answer is credited, or the sync is done. -/
theorem Converging.step (hP : P.Injective) :
    ∃ ans net' action, Responder.answerQuery P accountSubtreeHeight target x.query = .ok (some ans) ∧
      net.answer P accountSubtreeHeight x ans = .ok (net', action) ∧
      (∀ act, action = some act → act = .fulfilledRequest) ∧
      ∃ W' log', Converging P accountSubtreeHeight target n net' W' log' := by
  have hcredited : (∃ ans net', Responder.answerQuery P accountSubtreeHeight target x.query = .ok (some ans) ∧
      net.answer P accountSubtreeHeight x ans = .ok (net', some .fulfilledRequest) ∧
      ∃ W' log', Converging P accountSubtreeHeight target n net' W' log') →
      ∃ ans net' action, Responder.answerQuery P accountSubtreeHeight target x.query = .ok (some ans) ∧
        net.answer P accountSubtreeHeight x ans = .ok (net', action) ∧
        (∀ act, action = some act → act = .fulfilledRequest) ∧
        ∃ W' log', Converging P accountSubtreeHeight target n net' W' log' := by
    intro hstep
    obtain ⟨ans, net', hanswer, hnet, hconv⟩ := hstep
    exact ⟨ans, net', _, hanswer, hnet, fun act hact => (Option.some.inj hact).symm, hconv⟩
  by_cases hdone : alreadyDone net.t = true
  · obtain ⟨ans, hanswer⟩ := h.honest ht hn hx
    obtain ⟨net', hnet, hconv⟩ := h.ignored hx hdone ans
    exact ⟨ans, net', none, hanswer, hnet, fun act hact => (nomatch hact), W, log, hconv⟩
  · obtain ⟨a, hquery, hW, hle, hfirst⟩ := h.query hx
    have hnot : alreadyDone net.t = false := Bool.not_eq_true _ ▸ hdone
    by_cases hlt : a.length < target.depth - accountSubtreeHeight
    · exact hcredited (h.children hP ht hx hnot hquery hW hlt)
    · exact hcredited (h.contents ht hn hx hnot hquery hW hlt hle hfirst)

end Converging

variable (hpos : 0 < n) {m : Nat} (hmt : Filled mt m) (hm : m ≤ n) (hd : mt.depth = target.depth) (data : D)
  (equal : D → D → Bool)
include ht hn hpos hmt hm hd

/-- The first answer, the number of accounts. -/
theorem start_step {x : Pending Hash} (hx : x ∈ (Net.start P target mt data equal).outstanding) :
    ∃ ans net', Responder.answerQuery P accountSubtreeHeight target x.query = .ok (some ans) ∧
      (Net.start P target mt data equal).answer P accountSubtreeHeight x ans = .ok (net', some .fulfilledRequest) ∧
      ∃ W' log', Converging P accountSubtreeHeight target n net' W' log' := by
  have hinv : Inv accountSubtreeHeight (Net.start P target mt data equal) fun _ => none :=
    (Inv.create accountSubtreeHeight mt).newGoal accountSubtreeHeight _ data equal
  have hxeq : x = ⟨0, target.merkleRoot P, .numAccounts⟩ := List.mem_singleton.1 hx
  have hquery : x.query = .numAccounts := congrArg Pending.query hxeq
  have hroot : x.rootHash = target.merkleRoot P := congrArg Pending.rootHash hxeq
  have hhandled : Handled (Net.start P target mt data equal).t x := ⟨congrArg some hroot.symm, rfl⟩
  have hdepth : (Net.start P target mt data equal).t.tree.depth = target.depth := hd
  have hr := handleResult_count P accountSubtreeHeight (W := fun _ => none) hhandled.1 hpos (by rw [hdepth]; exact hn)
    (target.hashAt P (List.replicate (target.depth - Nat.clog 2 n) .left))
  rw [← hinv.tables, hdepth, Responder.complete_count P ht hn, if_pos hroot.symm, ← hquery] at hr
  have hanswer := handleAnswer_ok P accountSubtreeHeight hinv hhandled hr
    (by rw [← hdepth]; exact .counted hquery)
  have hkept := (hinv.counted accountSubtreeHeight hx).settled P accountSubtreeHeight
  refine ⟨_, _, by rw [hquery]; exact Responder.answer_count P accountSubtreeHeight ht hpos,
    Exn.andThen_of_ok hanswer _, Function.update (fun _ => none) Addr.root (some x.rootHash), [Addr.root], ?_⟩
  have hround : Net.nextRound (Net.start P target mt data equal).round x.query (some .fulfilledRequest) = 1 :=
    if_pos ⟨hquery, rfl⟩
  have hW : ∀ {a e}, Function.update (fun _ => none) Addr.root (some x.rootHash) a = some e →
      a = Addr.root ∧ e = x.rootHash := by
    intro a e ha
    by_cases hne : a = Addr.root
    · rw [hne, Function.update_self] at ha
      exact ⟨hne, (Option.some.inj ha).symm⟩
    · rw [Function.update_of_ne hne] at ha
      cases ha
  have hWsome : ∀ {a}, (Function.update (fun _ => none) Addr.root (some x.rootHash) a).isSome = true → a = Addr.root := by
    intro a ha
    obtain ⟨e, he⟩ := Option.isSome_iff_exists.1 ha
    exact (hW he).1
  have herase : (Net.start P target mt data equal).outstanding.erase x = [] := by
    rw [hxeq]
    exact List.erase_cons_head ..
  rw [hdepth] at hkept
  simp only [hround]
  refine ⟨hkept, (settle_desiredRoot P _).trans rfl, ?_, ?_, ?_, fun a e ha => ?_, fun i hi => ?_, fun _ a ha => ?_, ?_,
    List.nodup_singleton _, fun b hb => ?_, fun a ha b hb _ => ?_, fun hdone => ?_⟩
  · rw [← hd]
    exact congrArg MT.depth (settle_tree P _)
  · intro y hy
    simp only [Net.read, herase, List.nil_append, settle_queries] at hy
    rw [List.mem_singleton.1 hy]
    exact ⟨hroot, rfl, queryOf_ne_numAccounts accountSubtreeHeight _ _⟩
  · intro i hi
    simp only [Net.read, settle_tree] at hi
    exact ((hmt.get i).1 hi).trans_le hm
  · obtain ⟨rfl, rfl⟩ := hW ha
    rw [Addr.first_root]
    exact ⟨hroot, hpos⟩
  · refine Or.inr ⟨Addr.root, ?_, under_root.2 hi⟩
    rw [Function.update_self]
    rfl
  · rw [hWsome ha]
    refine ⟨⟨1, x.rootHash, queryOf accountSubtreeHeight target.depth Addr.root⟩, ?_, rfl⟩
    simp only [Net.read, settle_queries]
    exact List.mem_append_right _ (List.mem_singleton_self _)
  · simp only [Net.read, settle_queries]
    rfl
  · rw [List.mem_singleton.1 hb]
    exact Nat.zero_le _
  · rw [hWsome ha, List.mem_singleton.1 hb]
  · rcases settle_done P hdone with hreached | hold
    · simp only [Net.read, settle_tree]
      exact (Option.some.inj hreached).symm
    · cases hold

end Step

/-! ## The end of a run -/

section End

variable {P accountSubtreeHeight} {target : MT Account} {n : Nat} {net : Net Hash Account D} {W : Addr → Option Hash}
  {log : List Addr} (h : Converging P accountSubtreeHeight target n net W log)
include h

omit [DecidableEq Hash] in
/-- No address was asked for twice. -/
theorem Converging.addresses : net.issued.filterMap Query.address = log := by
  have hlog : ∀ l : List Addr,
      (l.map (queryOf accountSubtreeHeight target.depth)).filterMap Query.address = l := by
    intro l
    rw [List.filterMap_map]
    exact (congrArg (fun f => l.filterMap f) (funext fun a => address_queryOf accountSubtreeHeight _ a)).trans
      List.filterMap_some
  rw [h.issued]
  exact hlog log

omit [DecidableEq Hash] in
theorem Converging.issued_length : net.issued.length ≤ 2 ^ (target.depth + 1) := by
  rw [h.issued, List.length_cons, List.length_map]
  exact Addr.length_le h.nodup h.logDepth

omit [DecidableEq Hash] in
theorem Converging.get_eq (hP : P.Injective) (ht : Filled target n) (hn : n ≤ 2 ^ target.depth)
    (hend : net.outstanding = []) (i : Nat) : net.t.tree.get i = target.get i := by
  by_cases hi : i < 2 ^ target.depth
  · by_cases hdone : alreadyDone net.t = true
    · refine sameBelow_iff.1 (hP.sameBelow h.depth (a := Addr.root) (h.done hdone)) i ?_
      rw [h.depth]
      exact under_root.2 hi
    · rcases h.same i hi with heq | ⟨a, ha, -⟩
      · exact heq
      · obtain ⟨x, hx, -⟩ := h.asked (Bool.not_eq_true _ ▸ hdone) a ha
        rw [hend] at hx
        cases hx
  · have hnone : net.t.tree.get i = none := by
      rw [← Option.not_isSome_iff_eq_none]
      intro hsome
      have := h.filled i hsome
      omega
    rw [hnone, ht.none (by omega)]

end End

section Main

variable {P} (hP : P.Injective) {target mt : MT Account} {n m : Nat} (ht : Filled target n) (hpos : 1 < n)
  (hn : n ≤ 2 ^ target.depth) (hmt : Filled mt m) (hm : m ≤ n) (hd : mt.depth = target.depth) {data : D}
  {equal : D → D → Bool} {k : Nat} {net : Net Hash Account D}
  (hrun : HonestRun P accountSubtreeHeight target mt data equal k net)
include hP ht hpos hn hmt hm hd hrun

theorem HonestRun.converging :
    net = Net.start P target mt data equal ∨ ∃ W log, Converging P accountSubtreeHeight target n net W log := by
  induction hrun with
  | start => exact Or.inl rfl
  | @answer k net net' x ans action _ hx hanswer h ih =>
    refine Or.inr ?_
    rcases ih with rfl | ⟨W, log, hconv⟩
    · obtain ⟨ans', net'', hanswer', h', hconv⟩ :=
        start_step ht hn (Nat.zero_lt_of_lt hpos) hmt hm hd data equal hx
      rw [hanswer] at hanswer'
      cases hanswer'
      rw [h] at h'
      cases h'
      exact hconv
    · obtain ⟨ans', net'', action', hanswer', h', -, hconv⟩ := hconv.step ht hn hx hP
      rw [hanswer] at hanswer'
      cases hanswer'
      rw [h] at h'
      cases h'
      exact hconv

end Main

/-! ### Hashes as terms -/

inductive TermHash where
  | empty
  | account (a : Nat)
  | merge (height : Nat) (l r : TermHash)
deriving DecidableEq

def termHashing : Hashing TermHash Nat where
  merge := .merge
  hashAccount := .account
  emptyAccount := .empty

theorem termHashing_injective : termHashing.Injective := by
  refine ⟨fun h a b a' b' heq => ?_, fun s s' heq => ?_⟩
  · cases heq
    exact ⟨rfl, rfl⟩
  · cases s <;> cases s' <;> cases heq <;> rfl

theorem numberTree_filled (accounts : List Nat) : Filled (numberTree accounts) accounts.length := by
  refine ⟨fun i => ?_, ?_⟩
  · simp [numberTree]
  · cases accounts with
    | nil => rfl
    | cons a l => simp [numberTree, MT.numAccounts]

end Mina.SyncableLedger
