/-
The staged ledger and the blockchain circuit update the pending coinbases in
the same way (`checked_eq_merkleRoot`).

Some blocks that the staged ledger accepts are outside this
(`checked_differs`): the circuit takes the amount zero for no coinbase, so it
pushes no second coinbase of that amount and refuses a first one, and of two
coinbases in the second partition it pushes only the first.
-/
import Mina.StagedLedger.CoinbaseQueue

namespace Mina.StagedLedger

open PendingCoinbase
open PendingCoinbase.Update (Action)
open Merkle (bitReverse)

variable {F : Type} (O : RandomOracle F) {I : LedgerModule F} (c : ConstraintConstants)

/-! ## Runs -/

/-- The block adds a stack. -/
def addsStack (isNewStack : Bool) : Action → Prop
  | .updateNone => False
  | .updateOne => isNewStack = true
  | .updateTwoCoinbaseInFirst => True
  | .updateTwoCoinbaseInSecond => True

/-- Before the block more than one stack is pending when it has a proof, and
fewer than `2 ^ depth` when it adds a stack. -/
structure WithinBounds (depth : Nat) (collection : PendingCoinbase.T F) (proofEmitted isNewStack : Bool)
    (action : Action) : Prop where
  many : proofEmitted = true → 1 < collection.posList.length
  room : addsStack isNewStack action → collection.posList.length < 2 ^ depth

inductive Reachable [DecidableEq F] : T I → Prop
  | create {ledger : I.Ledger} {t : T I} : createExn O c ledger = .ok t → Reachable t
  | apply {t : T I} {b : BlockState I} {preDiffInfo : PreDiffInfo I} {r : Applied I} : Reachable t →
    applyDiff O b c t preDiffInfo = .ok r →
      WithinBounds c.pendingCoinbaseDepth t.pendingCoinbaseCollection r.ledgerProof.isSome r.isNewStack r.action →
        Reachable r.stagedLedger

/-- The invariant: the first block with transactions finds a fresh tree. -/
structure Inv (t : T I) (q : Queue F) : Prop where
  holds : Holds O c.pendingCoinbaseDepth q t.pendingCoinbaseCollection
  fresh : q.pending = [] → t.scanState.nextOnNewTree = true

variable {O} {c} {t : T I} {q : Queue F} {b : BlockState I} {proofEmitted : Bool}

theorem partition_of_fresh {scanState : ScanState I} (hfresh : scanState.nextOnNewTree = true) :
    (ScanState.partitionIfOverflowing scanState).second = none := by
  rw [ParallelScan.nextOnNewTree_iff] at hfresh
  simp only [ScanState.partitionIfOverflowing, ParallelScan.State.partitionIfOverflowing,
    ParallelScan.State.freeSpaceOnCurrentTree, hfresh, lt_irrefl, if_false, Option.map_none]

theorem Inv.pending_ne_nil (h : Inv O c t q) (hfresh : t.scanState.nextOnNewTree = false) : q.pending ≠ [] := by
  intro hnil
  have := h.fresh hnil
  rw [hfresh] at this
  cases this

theorem Inv.pending_ne_nil_of_two (h : Inv O c t q)
    (htwo : (ScanState.partitionIfOverflowing t.scanState).second.isSome = true) : q.pending ≠ [] := by
  intro hnil
  rw [partition_of_fresh (h.fresh hnil)] at htwo
  cases htwo

theorem allowed_latestOp {isNewStack : Bool} (hroom : isNewStack = true → q.pending.length < 2 ^ c.pendingCoinbaseDepth)
    (hne : isNewStack = false → q.pending ≠ []) (hmany : proofEmitted = true → 1 < q.pending.length) (s : Stack F) :
    (afterProof q proofEmitted).Allowed c.pendingCoinbaseDepth (latestOp isNewStack s) := by
  cases isNewStack with
  | true => exact (afterProof_length_le q proofEmitted).trans_lt (hroom rfl)
  | false => exact afterProof_ne_nil hmany (hne rfl)

/-- What a block does to the stacks the queue allows. -/
theorem Inv.allAllowed (h : Inv O c t q) {ledger : I.Ledger} {txns : List (WithStatus I.Status Transaction)}
    {r : CoinbaseStackData I × I.Ledger}
    (hdata : updateCoinbaseStackAndGetData O b t.scanState ledger t.pendingCoinbaseCollection txns = .ok r)
    (hbounds : WithinBounds c.pendingCoinbaseDepth t.pendingCoinbaseCollection proofEmitted r.1.isNewStack r.1.action) :
    (proofEmitted = true → 1 < q.pending.length) ∧
      (afterProof q proofEmitted).AllAllowed c.pendingCoinbaseDepth (stackOps r.1.isNewStack r.1.stackUpdate) := by
  have hlen := length_posList h.holds
  have hmany : proofEmitted = true → 1 < q.pending.length := fun he => by
    rw [← hlen]
    exact hbounds.many he
  have hroom : addsStack r.1.isNewStack r.1.action → q.pending.length < 2 ^ c.pendingCoinbaseDepth := fun ha => by
    rw [← hlen]
    exact hbounds.room ha
  refine ⟨hmany, ?_⟩
  have htwo : ∀ s₁ s₂ : Stack F, q.pending ≠ [] → q.pending.length < 2 ^ c.pendingCoinbaseDepth →
      (afterProof q proofEmitted).AllAllowed c.pendingCoinbaseDepth [.update s₁, .push s₂] := by
    intro s₁ s₂ hne hlt
    have hle := afterProof_length_le q proofEmitted
    have hne' := afterProof_ne_nil hmany hne
    have hpos := List.length_pos_of_ne_nil hne'
    refine ⟨hne', ?_, trivial⟩
    simp only [Queue.Allowed, Queue.step, List.length_append, List.length_dropLast, List.length_singleton]
    omega
  rcases updateCoinbaseStackAndGetData_cases hdata with ⟨-, hr⟩ | ⟨-, hone, working, hworking, hnew, haction, hupdate⟩ |
    ⟨-, hsecond, working, slots, -, hworking, hnew, hupdate⟩
  · rw [hr]
    trivial
  · rw [haction] at hroom
    rw [hupdate, hnew]
    rw [hnew] at hroom
    exact ⟨allowed_latestOp hroom h.pending_ne_nil hmany _, trivial⟩
  · have hne := h.pending_ne_nil_of_two hsecond
    split at hupdate <;> rw [Prod.mk.injEq] at hupdate <;> obtain ⟨haction, hupdate⟩ := hupdate <;>
      rw [haction] at hroom <;> rw [hupdate, hnew]
    · exact htwo _ _ hne (hroom trivial)
    · exact ⟨afterProof_ne_nil hmany hne, trivial⟩
    · exact htwo _ _ hne (hroom trivial)
    · trivial

theorem fillWork_nil [DecidableEq F] {scanState : ScanState I} {works : List (TransactionSnarkWork F)}
    {r : Option (LedgerProof F × List (WithStatus I.Status Transaction × F)) × ScanState I}
    (hok : ScanState.fillWorkAndEnqueueTransactions scanState [] works = .ok r) :
    r.2.nextOnNewTree = scanState.nextOnNewTree := by
  obtain ⟨workList, -, hok⟩ := Exn.andThen_eq_ok.1 hok
  obtain ⟨s, hs, hok⟩ := Exn.andThen_eq_ok.1 hok
  have hnext := ParallelScan.update_nil hs
  split at hok
  · cases hok
    exact hnext
  · dsimp only at hok
    split at hok
    · cases hok
      exact hnext
    · cases hok

/-- A block without an operation on the stacks has no data. -/
theorem Inv.data_nil (h : Inv O c t q) {ledger : I.Ledger} {txns : List (WithStatus I.Status Transaction)}
    {r : CoinbaseStackData I × I.Ledger}
    (hdata : updateCoinbaseStackAndGetData O b t.scanState ledger t.pendingCoinbaseCollection txns = .ok r)
    (hnil : q.pending = []) (hops : stackOps r.1.isNewStack r.1.stackUpdate = []) : r.1.data = [] := by
  rcases updateCoinbaseStackAndGetData_cases hdata with ⟨-, hr⟩ | ⟨-, -, working, -, -, -, hupdate⟩ | ⟨-, hsecond, -⟩
  · rw [hr]
  · rw [hupdate] at hops
    cases hops
  · exact absurd hnil (h.pending_ne_nil_of_two hsecond)

theorem run_ne_nil {q : Queue F} {isNewStack : Bool} {stackUpdate : StackUpdate F}
    (hops : stackOps isNewStack stackUpdate ≠ []) : (q.run (stackOps isNewStack stackUpdate)).pending ≠ [] := by
  cases stackUpdate with
  | updateNone => exact absurd rfl hops
  | updateOne s =>
    cases isNewStack <;> simp [stackOps, Queue.run, latestOp, Queue.step]
  | updateTwo s₁ s₂ => simp [stackOps, Queue.run, Queue.step]

/-- The step lemma. -/
theorem Inv.applyDiff [DecidableEq F] (h : Inv O c t q) {preDiffInfo : PreDiffInfo I} {r : Applied I}
    (hok : applyDiff O b c t preDiffInfo = .ok r)
    (hbounds : WithinBounds c.pendingCoinbaseDepth t.pendingCoinbaseCollection r.ledgerProof.isSome r.isNewStack
      r.action) : ∃ q', Inv O c r.stagedLedger q' := by
  obtain ⟨work, -, hok⟩ := Exn.andThen_eq_ok.1 hok
  obtain ⟨⟨d, newLedger⟩, hdata, hok⟩ := Exn.andThen_eq_ok.1 hok
  obtain ⟨required, -, hok⟩ := Exn.andThen_eq_ok.1 hok
  dsimp only at hok
  split at hok
  · cases hok
  obtain ⟨-, -, hok⟩ := Exn.andThen_eq_ok.1 hok
  obtain ⟨⟨res, scanState⟩, hfill, hok⟩ := Exn.andThen_eq_ok.1 hok
  obtain ⟨collection, hupdate, hok⟩ := Exn.andThen_eq_ok.1 hok
  obtain ⟨amount, -, hok⟩ := Exn.andThen_eq_ok.1 hok
  cases hok
  have hsome : (res.map (·.1)).isSome = res.isSome := Option.isSome_map
  obtain ⟨hmany, hallowed⟩ := h.allAllowed hdata hbounds
  rw [← hsome] at hmany hallowed
  refine ⟨_, Holds.updatePendingCoinbaseCollection h.holds hmany hallowed hupdate, fun hnil => ?_⟩
  by_cases hops : stackOps d.isNewStack d.stackUpdate = []
  · rw [hops] at hnil
    have hqnil : q.pending = [] := by
      by_contra hne
      exact afterProof_ne_nil hmany hne hnil
    rw [h.data_nil hdata hqnil hops] at hfill
    exact (fillWork_nil hfill).trans (h.fresh hqnil)
  · exact absurd hnil (run_ne_nil hops)

/-- The run lemma. -/
theorem Reachable.inv [DecidableEq F] (h : Reachable O c t) : ∃ q, Inv O c t q := by
  induction h with
  | create hcreate =>
    obtain ⟨collection, hcollection, hok⟩ := Exn.andThen_eq_ok.1 hcreate
    cases hok
    obtain ⟨t₀, ht₀, hshape, hpos, hnew⟩ := create_ok O c.pendingCoinbaseDepth
    cases Except.ok.inj (ht₀.symm.trans hcollection)
    refine ⟨⟨0, []⟩, ⟨hshape, Nat.zero_le _, ?_, ?_⟩, fun _ => ParallelScan.nextOnNewTree_empty _ _⟩
    · rw [hpos]
      rfl
    · rw [hnew]
      exact (Nat.zero_mod _).symm
  | apply hreach hok hbounds ih =>
    obtain ⟨q, hq⟩ := ih
    exact hq.applyDiff hok hbounds

/-! ## The refinement -/

theorem coinbases_in_first {scanState : ScanState I} {receiver : PublicKey} {total : Amount}
    {txns : List (WithStatus I.Status Transaction)} (hc : BlockCoinbases scanState receiver total txns)
    (htwo : (ScanState.partitionIfOverflowing scanState).second.isSome = true) {slots : Nat}
    (hslots : slots = (ScanState.partitionIfOverflowing scanState).first.1.toNat)
    (hfirst : coinbases (txns.take slots) ≠ []) :
    coinbases (txns.take slots) = coinbases txns ∧ coinbases (txns.drop slots) = [] := by
  have hsplit := coinbases_split txns slots
  have hnil : coinbases (txns.drop slots) = [] := by
    cases hparts : coinbases (txns.drop slots) with
    | nil => rfl
    | cons p ps =>
      have hlen := congrArg List.length hsplit
      have hpos := List.length_pos_of_ne_nil hfirst
      rw [List.length_append, hparts, List.length_cons] at hlen
      have hle := hc.parts.length_le
      have htwoParts : (coinbases txns).length = 2 := by omega
      have := hc.inFirst htwoParts htwo
      rw [← hslots, hparts] at this
      cases this
  rw [hnil, List.append_nil] at hsplit
  exact ⟨hsplit, hnil⟩

theorem coinbases_in_second {scanState : ScanState I} {receiver : PublicKey} {total : Amount}
    {txns : List (WithStatus I.Status Transaction)} (hc : BlockCoinbases scanState receiver total txns)
    (htwo : (ScanState.partitionIfOverflowing scanState).second.isSome = true) {slots : Nat}
    (hslots : slots = (ScanState.partitionIfOverflowing scanState).first.1.toNat)
    (hfirst : coinbases (txns.take slots) = []) :
    coinbases txns = [(receiver, total)] ∧ coinbases (txns.drop slots) = [(receiver, total)] := by
  have hsplit := coinbases_split txns slots
  rw [hfirst, List.nil_append] at hsplit
  have hone : coinbases txns = [(receiver, total)] := by
    have hin := hc.inFirst
    rw [← hslots, hsplit] at hin
    cases hparts : coinbases txns with
    | nil =>
      have := hc.parts
      rw [hparts] at this
      cases this
    | cons p ps =>
      have hcases := hc.parts
      rw [hparts] at hcases
      cases hcases with
      | one => rfl
      | two =>
        rw [hparts] at hin
        exact absurd (hin rfl htwo) (by simp)
  exact ⟨hone, hsplit.trans hone⟩

/-- **The circuit computes the root of the staged ledger's collection**: for a
block on a reachable staged ledger, with coinbases that the circuit can be told
of, popping and adding coinbases with the block's action and amount ends with
the root of the updated collection. -/
theorem checked_eq_merkleRoot [DecidableEq F] {M : MerkleTreeChecked F} (hM : Documented O M) {t : T I}
    (hreach : Reachable O c t) {txns : List (WithStatus I.Status Transaction)} {r : CoinbaseStackData I × I.Ledger}
    (hdata : updateCoinbaseStackAndGetData O b t.scanState t.ledger t.pendingCoinbaseCollection txns = .ok r)
    {proof : Option (LedgerProof F)}
    (hbounds : WithinBounds c.pendingCoinbaseDepth t.pendingCoinbaseCollection proof.isSome r.1.isNewStack r.1.action)
    {t' : PendingCoinbase.T F}
    (hupdate : updatePendingCoinbaseCollection O c.pendingCoinbaseDepth t.pendingCoinbaseCollection r.1.stackUpdate
      r.1.isNewStack proof = .ok t')
    {receiver : PublicKey} {superchargeCoinbase : Bool} {total amount : Amount}
    (htotal : totalCoinbaseAmount c superchargeCoinbase = .ok total)
    (hcoinbases : BlockCoinbases t.scanState receiver total txns)
    (hamount : coinbaseForBlockchainSnark ((coinbases txns).map (·.2)) = .ok amount) :
    popThenAdd O M c t.pendingCoinbaseCollection r.1.isNewStack proof.isSome ⟨r.1.action, amount⟩ receiver
      superchargeCoinbase b.stateAndBodyHash.2 = .ok (merkleRoot O t') := by
  obtain ⟨q, hq⟩ := hreach.inv
  obtain ⟨hmany, hallowed⟩ := hq.allAllowed hdata hbounds
  have ht' := Holds.updatePendingCoinbaseCollection hq.holds hmany hallowed hupdate
  rw [ht'.shape.merkleRoot]
  obtain ⟨hne, remAmount, hrem, hpush⟩ := hcoinbases.parts.amount (O := O) hamount
  have hlen := length_posList hq.holds
  have hroom : addsStack r.1.isNewStack r.1.action → q.pending.length < 2 ^ c.pendingCoinbaseDepth := fun ha => by
    rw [← hlen]
    exact hbounds.room ha
  rcases updateCoinbaseStackAndGetData_cases hdata with ⟨hnil, -⟩ |
    ⟨-, hone, working, hworking, hnew, haction, hstack⟩ |
    ⟨-, htwo, working, slots, hslots, hworking, hnew, hstack⟩
  · have hparts := hcoinbases.parts
    rw [hnil] at hparts
    cases hparts
  · rw [haction, hnew] at hroom
    obtain rfl := workingStack_eq hq.holds hroom hworking
    rw [haction, hnew, hstack]
    exact updateOne_root hM hq.holds hmany hroom hq.pending_ne_nil htotal hrem hne _ hpush
  · have hqne := hq.pending_ne_nil_of_two htwo
    obtain rfl := workingStack_eq hq.holds (fun hnew => absurd hnew (by decide)) hworking
    -- where the coinbases are
    have hexists := coinbaseExists_eq (txns.take slots)
    split at hstack <;> rename_i hfirst hsecond <;> rw [Prod.mk.injEq] at hstack <;>
      obtain ⟨haction, hstack⟩ := hstack <;> rw [haction] at hroom <;> rw [haction, hnew, hstack] <;>
      rw [hfirst] at hexists
    · have hsome : coinbases (txns.take slots) ≠ [] := fun hnil => by
        rw [hnil] at hexists
        cases hexists
      obtain ⟨hall, hnone⟩ := coinbases_in_first hcoinbases htwo hslots hsome
      rw [targetStack, targetStack, hall, hnone]
      exact updateTwo_root_first hM hq.holds hmany (hroom trivial) hqne htotal hrem hne _ hpush
    · have hsome : coinbases (txns.take slots) ≠ [] := fun hnil => by
        rw [hnil] at hexists
        cases hexists
      obtain ⟨hall, -⟩ := coinbases_in_first hcoinbases htwo hslots hsome
      rw [targetStack, hall]
      exact updateOne_root hM hq.holds hmany (fun hnew => absurd hnew (by decide)) (fun _ => hqne) htotal hrem hne _
        hpush
    · have hnil : coinbases (txns.take slots) = [] := List.isEmpty_iff.1 (by
        rw [← Bool.not_eq_false', ← hexists])
      obtain ⟨hone, hlast⟩ := coinbases_in_second hcoinbases htwo hslots hnil
      rw [hone] at hamount
      obtain rfl : total = amount := Except.ok.inj hamount
      rw [targetStack, targetStack, hnil, hlast]
      exact updateTwo_root_second hM hq.holds hmany (hroom trivial) hqne htotal hrem hne receiver _
    · have hnil : coinbases (txns.take slots) = [] := List.isEmpty_iff.1 (by
        rw [← Bool.not_eq_false', ← hexists])
      obtain ⟨-, hlast⟩ := coinbases_in_second hcoinbases htwo hslots hnil
      have hempty : txns.drop slots = [] := List.length_eq_zero_iff.1 (by
        have := of_decide_eq_false hsecond
        omega)
      rw [hempty] at hlast
      cases hlast

/-! ## Blocks on a concrete ledger -/

/-- A ledger that counts its transactions. -/
def countLedger : LedgerModule Nat where
  Ledger := Nat
  SparseLedger := Unit
  Applied := Transaction
  View := Unit
  Status := Unit
  statusDecEq := inferInstance
  merkleRoot n := n
  nextAvailableToken _ := 2
  applyTransaction _ n s := .ok (s, n + 1)
  userCommandStatus _ := ()
  transaction s := ⟨s, ()⟩
  ofLedgerSubsetExn _ _ := .ok ()
  decompress _ := true

def numberCircuit : MerkleTreeChecked Nat := ⟨impliedRoot numberOracle 0, fetchAndUpdateReq numberOracle⟩

theorem numberCircuit_documented : Documented numberOracle numberCircuit := ⟨rfl, rfl⟩

/-- Trees of four transactions, and a coinbase amount of 10. -/
def smallConstants : ConstraintConstants := ⟨0, 2, 2, 10, 2⟩

def someBlock : BlockState countLedger := ⟨(), (5, 7)⟩

def someReceiver : PublicKey := ⟨3, false⟩

def withoutStatus (ts : List Transaction) : List (WithStatus countLedger.Status Transaction) := ts.map fun t => ⟨t, ()⟩

/-- A coinbase to the receiver. -/
def someCoinbase (amount : Amount) : Transaction := .coinbase ⟨someReceiver, amount, none⟩

/-- A transfer of no fee. -/
def noTransfer : Transaction := .feeTransfer (.one ⟨someReceiver, 0, TokenId.default⟩)

/-- The staged ledger after a first block, which leaves two slots on the tree. -/
def afterFirst : Exn (Applied countLedger) :=
  (createExn numberOracle smallConstants (0 : Nat)).andThen fun t =>
    applyDiff numberOracle someBlock smallConstants t ⟨withoutStatus [someCoinbase 10, noTransfer], [], [10]⟩

theorem afterFirst_reachable {r : Applied countLedger} (h : afterFirst = .ok r)
    (hnone : r.ledgerProof.isSome = false) : Reachable numberOracle smallConstants r.stagedLedger := by
  obtain ⟨t, hcreate, hok⟩ := Exn.andThen_eq_ok.1 h
  refine .apply (.create hcreate) hok ⟨fun hsome => ?_, fun _ => ?_⟩
  · rw [hnone] at hsome
    cases hsome
  · have hlen : (createExn (I := countLedger) numberOracle smallConstants (0 : Nat)).andThen
        (fun t => .ok t.pendingCoinbaseCollection.posList.length) = .ok 0 := by decide +kernel
    rw [hcreate] at hlen
    rw [Except.ok.inj hlen]
    decide

/-- The root of the updated collection, and what the circuit answers. -/
def bothRoots (t : T countLedger) (txns : List (WithStatus countLedger.Status Transaction)) : Exn (Nat × Exn Nat) :=
  (updateCoinbaseStackAndGetData numberOracle someBlock t.scanState t.ledger t.pendingCoinbaseCollection
      txns).andThen fun r =>
    (updatePendingCoinbaseCollection numberOracle 2 t.pendingCoinbaseCollection r.1.stackUpdate r.1.isNewStack
        none).andThen fun t' =>
      (coinbaseForBlockchainSnark ((coinbases txns).map (·.2))).andThen fun amount =>
        .ok (merkleRoot numberOracle t',
          popThenAdd numberOracle numberCircuit smallConstants t.pendingCoinbaseCollection r.1.isNewStack false
            ⟨r.1.action, amount⟩ someReceiver false someBlock.stateAndBodyHash.2)

/-- The block with a coinbase on the second tree. -/
def secondBlock : List (WithStatus countLedger.Status Transaction) :=
  withoutStatus [noTransfer, noTransfer, someCoinbase 10]

theorem checked_eq_merkleRoot_second : ∃ (t : T countLedger) (r : CoinbaseStackData countLedger × Nat)
    (t' : PendingCoinbase.T Nat), Reachable numberOracle smallConstants t ∧ r.1.action = .updateTwoCoinbaseInSecond ∧
      updatePendingCoinbaseCollection numberOracle 2 t.pendingCoinbaseCollection r.1.stackUpdate r.1.isNewStack none =
        .ok t' ∧
      popThenAdd numberOracle numberCircuit smallConstants t.pendingCoinbaseCollection r.1.isNewStack false
        ⟨r.1.action, 10⟩ someReceiver false someBlock.stateAndBodyHash.2 = .ok (merkleRoot numberOracle t') := by
  obtain ⟨a, ha⟩ := Exn.exists_of_isOk (x := afterFirst) (by decide +kernel)
  have hfacts : afterFirst.andThen (fun a => .ok (a.ledgerProof.isSome,
      a.stagedLedger.pendingCoinbaseCollection.posList.length,
      ((updateCoinbaseStackAndGetData numberOracle someBlock a.stagedLedger.scanState a.stagedLedger.ledger
        a.stagedLedger.pendingCoinbaseCollection secondBlock).andThen fun r => .ok r.1.action))) =
      .ok (false, 1, .ok .updateTwoCoinbaseInSecond) := by decide +kernel
  rw [ha, Exn.andThen_ok, Except.ok.injEq] at hfacts
  simp only [Prod.mk.injEq] at hfacts
  obtain ⟨hnone, hlen, haction⟩ := hfacts
  have hreach := afterFirst_reachable ha hnone
  obtain ⟨r, hdata, haction⟩ := Exn.andThen_eq_ok.1 haction
  have hroots : (afterFirst.andThen fun a => bothRoots a.stagedLedger secondBlock).isOk = true := by decide +kernel
  rw [ha, Exn.andThen_ok] at hroots
  obtain ⟨roots, hroots⟩ := Exn.exists_of_isOk hroots
  obtain ⟨r', hdata', hroots⟩ := Exn.andThen_eq_ok.1 hroots
  cases Except.ok.inj (hdata.symm.trans hdata')
  obtain ⟨t', hupdate, -⟩ := Exn.andThen_eq_ok.1 hroots
  refine ⟨a.stagedLedger, r, t', hreach, Except.ok.inj haction, hupdate, ?_⟩
  have htotal : totalCoinbaseAmount smallConstants false = .ok 10 := by decide
  have hbounds : WithinBounds smallConstants.pendingCoinbaseDepth a.stagedLedger.pendingCoinbaseCollection
      (none : Option (LedgerProof Nat)).isSome r.1.isNewStack r.1.action := by
    refine ⟨fun hsome => ?_, fun _ => ?_⟩
    · cases hsome
    · rw [hlen]
      decide
  exact checked_eq_merkleRoot numberCircuit_documented hreach hdata hbounds hupdate htotal
    ⟨.one (by decide), fun htwo => absurd htwo (by decide)⟩ rfl

/-- On a reachable staged ledger a block with these transactions, whose
coinbases are in one partition and make up the total, leaves the circuit with
another answer than the root of the collection. -/
def Differs (txns : List (WithStatus countLedger.Status Transaction)) : Prop :=
  ∃ (t : T countLedger) (r : CoinbaseStackData countLedger × Nat) (t' : PendingCoinbase.T Nat) (amount : Amount),
    Reachable numberOracle smallConstants t ∧
      updateCoinbaseStackAndGetData numberOracle someBlock t.scanState t.ledger t.pendingCoinbaseCollection txns =
        .ok r ∧
      WithinBounds 2 t.pendingCoinbaseCollection false r.1.isNewStack r.1.action ∧
      updatePendingCoinbaseCollection numberOracle 2 t.pendingCoinbaseCollection r.1.stackUpdate r.1.isNewStack none =
        .ok t' ∧
      (∀ p ∈ coinbases txns, p.1 = someReceiver) ∧ ((coinbases txns).map (·.2)).sum = 10 ∧
      (coinbases (txns.take (ScanState.partitionIfOverflowing t.scanState).first.1.toNat) = [] ∨
        coinbases (txns.drop (ScanState.partitionIfOverflowing t.scanState).first.1.toNat) = []) ∧
      coinbaseForBlockchainSnark ((coinbases txns).map (·.2)) = .ok amount ∧
      popThenAdd numberOracle numberCircuit smallConstants t.pendingCoinbaseCollection r.1.isNewStack false
        ⟨r.1.action, amount⟩ someReceiver false someBlock.stateAndBodyHash.2 ≠ .ok (merkleRoot numberOracle t')

def distinctRoots : Exn (Nat × Exn Nat) → Bool
  | .ok roots => roots.2 ≠ .ok roots.1
  | .error _ => false

/-- The computation behind `Differs`, on the staged ledger after the first
block. -/
def differs (txns : List (WithStatus countLedger.Status Transaction)) (a : Applied countLedger) : Bool :=
  let slots := (ScanState.partitionIfOverflowing a.stagedLedger.scanState).first.1.toNat
  a.ledgerProof.isSome = false ∧ a.stagedLedger.pendingCoinbaseCollection.posList.length = 1 ∧
    (∀ p ∈ coinbases txns, p.1 = someReceiver) ∧ ((coinbases txns).map (·.2)).sum = 10 ∧
    (coinbases (txns.take slots) = [] ∨ coinbases (txns.drop slots) = []) ∧
    distinctRoots (bothRoots a.stagedLedger txns) = true

theorem differs_of_run {txns : List (WithStatus countLedger.Status Transaction)}
    (h : (afterFirst.andThen fun a => .ok (differs txns a)) = .ok true) : Differs txns := by
  obtain ⟨a, ha, h⟩ := Exn.andThen_eq_ok.1 h
  rw [Except.ok.injEq, differs, decide_eq_true_iff] at h
  obtain ⟨hnone, hlen, hreceiver, hsum, hside, h⟩ := h
  cases hroots : bothRoots a.stagedLedger txns with
  | error e =>
    rw [hroots] at h
    cases h
  | ok roots =>
    rw [hroots, distinctRoots, decide_eq_true_iff] at h
    obtain ⟨r, hdata, hroots⟩ := Exn.andThen_eq_ok.1 hroots
    obtain ⟨t', hupdate, hroots⟩ := Exn.andThen_eq_ok.1 hroots
    obtain ⟨amount, hamount, hroots⟩ := Exn.andThen_eq_ok.1 hroots
    cases hroots
    refine ⟨a.stagedLedger, r, t', amount, afterFirst_reachable ha hnone, hdata, ⟨fun hsome => ?_, fun _ => ?_⟩, hupdate,
      hreceiver, hsum, hside, hamount, h⟩
    · cases hsome
    · rw [hlen]
      decide

/-- Two coinbases in the second partition, and a coinbase of amount zero. -/
theorem checked_differs : Differs (withoutStatus [noTransfer, noTransfer, someCoinbase 4, someCoinbase 6]) ∧
    Differs (withoutStatus [someCoinbase 10, someCoinbase 0]) ∧
    Differs (withoutStatus [someCoinbase 0, someCoinbase 10]) := by
  refine ⟨differs_of_run ?_, differs_of_run ?_, differs_of_run ?_⟩ <;> decide +kernel

end Mina.StagedLedger
