/-
The staged ledger and the circuit over the queue of pending stacks (`Holds`).

A proof takes the first stack off (`afterProof`), the latest stack is replaced
or a new one goes to the end (`latestOp`). The staged ledger performs these
operations on the collection, and the circuit writes the leaves that they
change.
-/
import Mina.StagedLedger.CoinbaseStacks
import Mina.PendingCoinbase.CheckedFacts
import Mina.PendingCoinbase.Fifo
import Mina.ParallelScan.Update

namespace Mina.StagedLedger

open PendingCoinbase
open PendingCoinbase.Update (Action)
open Merkle (bitReverse bitReverse_lt)

variable {F : Type} {O : RandomOracle F} {depth : Nat}

/-! ## The queue after a proof -/

/-- A proof takes the oldest stack off. -/
def afterProof (q : Queue F) (proofEmitted : Bool) : Queue F := if proofEmitted then q.step .remove else q

theorem afterProof_end (q : Queue F) (proofEmitted : Bool) :
    (afterProof q proofEmitted).removed + (afterProof q proofEmitted).pending.length =
      q.removed + q.pending.length := by
  rw [afterProof]
  split
  · simp only [Queue.step, List.length_tail]
    omega
  · rfl

theorem afterProof_length_le (q : Queue F) (proofEmitted : Bool) :
    (afterProof q proofEmitted).pending.length ≤ q.pending.length := by
  rw [afterProof]
  split
  · rw [Queue.step, List.length_tail]
    omega
  · exact le_rfl

theorem afterProof_last {q : Queue F} {proofEmitted : Bool} (hmany : proofEmitted = true → 1 < q.pending.length) :
    (afterProof q proofEmitted).pending.getLast? = q.pending.getLast? := by
  rw [afterProof]
  split
  next hemitted =>
    obtain ⟨n, l⟩ := q
    have hlen : 1 < l.length := hmany hemitted
    cases l with
    | nil => cases hlen
    | cons s l =>
      have hne : l ≠ [] := by
        rintro rfl
        exact absurd hlen (by simp)
      rw [Queue.step, List.tail_cons, List.getLast?_cons, List.getLast?_eq_some_getLast hne, Option.getD_some]
  · rfl

theorem afterProof_ne_nil {q : Queue F} {proofEmitted : Bool} (hmany : proofEmitted = true → 1 < q.pending.length)
    (hne : q.pending ≠ []) : (afterProof q proofEmitted).pending ≠ [] := by
  intro hnil
  have hlast := afterProof_last hmany
  rw [hnil, List.getLast?_nil, eq_comm, List.getLast?_eq_none_iff] at hlast
  exact hne hlast

section Holds

variable {q : Queue F} {t : PendingCoinbase.T F} {proofEmitted : Bool}

theorem length_posList (h : Holds O depth q t) : t.posList.length = q.pending.length := by
  rw [← List.length_reverse, h.posList, Queue.ids, List.length_map, List.length_range]

theorem oldestId_of_holds (h : Holds O depth q t) (hne : q.pending ≠ []) :
    oldestStackId t = some (q.removed % 2 ^ depth) := by
  obtain ⟨n, l⟩ := q
  obtain ⟨s, l, rfl⟩ := List.exists_cons_of_ne_nil hne
  exact h.last_posList

theorem oldestId_lt (h : Holds O depth q t) : (oldestStackId t).getD 0 < 2 ^ depth := by
  have hpos := Nat.two_pow_pos depth
  by_cases hne : q.pending = []
  · have hnil : t.posList = [] := List.length_eq_zero_iff.1 (by rw [length_posList h, hne, List.length_nil])
    rw [oldestStackId, hnil]
    exact hpos
  · rw [oldestId_of_holds h hne]
    exact Nat.mod_lt _ hpos

/-- The newest stack, or the empty one. -/
def newestStack (O : RandomOracle F) (q : Queue F) : Stack F := q.pending.getLast?.getD (Stack.empty O)

theorem newestId_of_holds {n : Nat} {l : List (Stack F)} {s : Stack F} (h : Holds O depth ⟨n, l ++ [s]⟩ t) :
    newestId t = (n + l.length) % 2 ^ depth := by
  rw [newestId, h.head_posList, Option.getD_some]

theorem newestId_lt (h : Holds O depth q t) : newestId t < 2 ^ depth := by
  have hpos := Nat.two_pow_pos depth
  obtain ⟨n, l⟩ := q
  cases l using List.reverseRecOn with
  | nil =>
    have hnil : t.posList = [] := List.length_eq_zero_iff.1 (length_posList h)
    rw [newestId, hnil]
    exact hpos
  | append_singleton l s =>
    rw [newestId_of_holds h]
    exact Nat.mod_lt _ hpos

theorem newPos_lt (h : Holds O depth q t) : t.newPos < 2 ^ depth := by
  rw [h.newPos]
  exact Nat.mod_lt _ (Nat.two_pow_pos depth)

/-- The leaf of the newest id, also after the oldest stack has been taken
off. -/
theorem newest_leaf (h : Holds O depth q t) (hmany : proofEmitted = true → 1 < q.pending.length) :
    leaves O depth (afterProof q proofEmitted).removed (afterProof q proofEmitted).pending
      (bitReverse depth (newestId t)) = newestStack O q := by
  have hlast := afterProof_last hmany
  have hend := afterProof_end q proofEmitted
  have hle := afterProof_length_le q proofEmitted
  have hroom := h.room
  generalize afterProof q proofEmitted = q' at *
  obtain ⟨n', l'⟩ := q'
  obtain ⟨n, l⟩ := q
  rw [newestStack, ← hlast]
  cases l' using List.reverseRecOn with
  | nil => rfl
  | append_singleton l' s =>
    simp only [List.getLast?_concat, List.length_append, List.length_singleton] at hlast hend hle hroom
    obtain ⟨l, rfl⟩ := List.getLast?_eq_some_iff.1 hlast.symm
    rw [List.length_append, List.length_singleton] at hend hle hroom
    rw [newestId_of_holds h, show n + l.length = n' + l'.length by omega, List.getLast?_concat, Option.getD_some]
    exact leaves_last O s (by omega)

/-- Popping writes the leaves of the queue after the proof. -/
theorem popped_leaves (h : Holds O depth q t) (hmany : proofEmitted = true → 1 < q.pending.length) :
    Function.update (leaves O depth q.removed q.pending) (bitReverse depth ((oldestStackId t).getD 0))
        (poppedStack O proofEmitted
          (leaves O depth q.removed q.pending (bitReverse depth ((oldestStackId t).getD 0)))) =
      leaves O depth (afterProof q proofEmitted).removed (afterProof q proofEmitted).pending := by
  cases proofEmitted with
  | false =>
    rw [poppedStack, if_neg (by decide), Function.update_eq_self]
    rfl
  | true =>
    obtain ⟨n, l⟩ := q
    have hlen : 1 < l.length := hmany rfl
    have hroom := h.room
    cases l with
    | nil => cases hlen
    | cons s l =>
      rw [List.length_cons] at hroom
      rw [poppedStack, if_pos rfl, oldestId_of_holds h (List.cons_ne_nil _ _), Option.getD_some]
      have htail := leaves_tail O (n := n) s (show l.length < 2 ^ depth by omega)
      rw [position] at htail
      rw [htail, afterProof, if_pos rfl, Queue.step, List.length_cons, Nat.min_eq_left (by omega), List.tail_cons]

/-- The leaf of the next id is free while there is room. -/
theorem next_leaf (n : Nat) {l : List (Stack F)} (hroom : l.length < 2 ^ depth) :
    leaves O depth n l (position depth (n + l.length)) = Stack.empty O :=
  leaves_of_ne O fun i hi => (position_ne (by omega) (by omega)).symm

end Holds

/-! ## The latest stack -/

/-- The latest stack is replaced, or a new one added. -/
def latestOp (isNewStack : Bool) (s : Stack F) : Op F := if isNewStack then .push s else .update s

/-- The operations on the queue after a proof has been taken off. -/
def stackOps (isNewStack : Bool) : StackUpdate F → List (Op F)
  | .updateNone => []
  | .updateOne stack1 => [latestOp isNewStack stack1]
  | .updateTwo stack1 stack2 => [.update stack1, .push stack2]

/-- What a block starts its stack from. -/
def latestWorking (O : RandomOracle F) (q : Queue F) (isNewStack : Bool) : Stack F :=
  if isNewStack then { Stack.empty O with state := StateStack.create (newestStack O q).state.curr }
  else newestStack O q

section Latest

variable {q : Queue F} {t : PendingCoinbase.T F} {proofEmitted isNewStack : Bool}

theorem newest_leaf_self (h : Holds O depth q t) :
    leaves O depth q.removed q.pending (bitReverse depth (newestId t)) = newestStack O q :=
  newest_leaf h (show false = true → 1 < q.pending.length from fun hfalse => absurd hfalse (by decide))

theorem workingStack_eq (h : Holds O depth q t) (hroom : isNewStack = true → q.pending.length < 2 ^ depth)
    {working : Stack F} (hok : workingStack t isNewStack = .ok working) : working = latestWorking O q isNewStack := by
  have hnewest := h.shape.getStack (bitReverse_lt depth (newestId t))
  rw [newest_leaf_self h] at hnewest
  have hid := h.shape.index _ (newestId_lt h)
  cases isNewStack with
  | false =>
    have hlatest : latestStack t false = .ok (newestStack O q) :=
      (Exn.andThen_of_ok hid _).trans (Exn.andThen_of_ok hnewest _)
    exact (Except.ok.inj (hlatest.symm.trans hok)).symm
  | true =>
    have hnext := h.shape.getStack (bitReverse_lt depth t.newPos)
    rw [h.newPos, ← position, next_leaf q.removed (hroom rfl)] at hnext
    have hindex := h.shape.index _ (newPos_lt h)
    rw [h.newPos, ← position] at hindex
    have hcurrent : currentStack t = .ok (newestStack O q) := (Exn.andThen_of_ok hid _).trans hnewest
    have hlatest : latestStack t true = .ok (latestWorking O q true) := by
      rw [latestStack, latestStackId, if_pos rfl, h.newPos]
      exact (Exn.andThen_of_ok hindex _).trans ((Exn.andThen_of_ok hnext _).trans (Exn.andThen_of_ok hcurrent _))
    exact (Except.ok.inj (hlatest.symm.trans hok)).symm

variable (isNewStack) in
/-- The circuit finds the same working stack at the leaf that it updates. -/
theorem latest_leaf (h : Holds O depth q t) (hmany : proofEmitted = true → 1 < q.pending.length)
    (hroom : isNewStack = true → q.pending.length < 2 ^ depth) :
    let q' := afterProof q proofEmitted
    let newest := leaves O depth q'.removed q'.pending (bitReverse depth (newestId t))
    { leaves O depth q'.removed q'.pending (bitReverse depth (latestStackId t isNewStack)) with
      state := if isNewStack then StateStack.create newest.state.curr else newest.state } =
      latestWorking O q isNewStack := by
  have hnewest := newest_leaf h hmany
  cases isNewStack with
  | false =>
    have hid : latestStackId t false = newestId t := rfl
    simp only [hid, hnewest]
    rfl
  | true =>
    have hid : latestStackId t true = t.newPos := rfl
    have hle := afterProof_length_le q proofEmitted
    have hlt := hroom rfl
    have hleaf := next_leaf (O := O) (afterProof q proofEmitted).removed (hle.trans_lt hlt)
    rw [afterProof_end, position, ← h.newPos] at hleaf
    simp only [hid, hnewest, hleaf]
    rfl

variable (isNewStack) in
/-- Writing that leaf is the operation on the queue. -/
theorem latest_leaves (h : Holds O depth q t) (hmany : proofEmitted = true → 1 < q.pending.length)
    (hroom : isNewStack = true → q.pending.length < 2 ^ depth) (hne : isNewStack = false → q.pending ≠ [])
    (s : Stack F) :
    let q' := afterProof q proofEmitted
    Function.update (leaves O depth q'.removed q'.pending) (bitReverse depth (latestStackId t isNewStack)) s =
      leaves O depth (q'.step (latestOp isNewStack s)).removed (q'.step (latestOp isNewStack s)).pending := by
  have hend := afterProof_end q proofEmitted
  have hle := afterProof_length_le q proofEmitted
  cases isNewStack with
  | true =>
    have hid : latestStackId t true = t.newPos := rfl
    have hlt := hroom rfl
    simp only [hid, h.newPos, ← hend, latestOp, Queue.step]
    exact (leaves_append O s (hle.trans_lt hlt)).symm
  | false =>
    have hid : latestStackId t false = newestId t := rfl
    have hlast := afterProof_last hmany
    have hroom := h.room
    obtain ⟨n, l⟩ := q
    obtain ⟨l, a, rfl⟩ := (List.eq_nil_or_concat' l).resolve_left (hne rfl)
    generalize afterProof ⟨n, l ++ [a]⟩ proofEmitted = q' at *
    obtain ⟨n', l'⟩ := q'
    rw [List.getLast?_concat] at hlast
    obtain ⟨l', rfl⟩ := List.getLast?_eq_some_iff.1 hlast
    simp only [List.length_append, List.length_singleton] at hend hle hroom
    have hstep : Queue.step ⟨n', l' ++ [a]⟩ (latestOp false s) = ⟨n', l' ++ [s]⟩ := by
      rw [latestOp, if_neg (by decide), Queue.step, List.dropLast_concat]
    simp only [hid, newestId_of_holds h, hstep, show n + l.length = n' + l'.length by omega]
    exact leaves_set_last O a s (by omega)

variable (isNewStack) in
/-- The staged ledger's update is that operation too. -/
theorem Holds.latest (h : Holds O depth q t) {s : Stack F} (hallowed : q.Allowed depth (latestOp isNewStack s))
    {t' : PendingCoinbase.T F} (hok : updateCoinbaseStack O depth t s isNewStack = .ok t') :
    Holds O depth (q.step (latestOp isNewStack s)) t' := by
  cases isNewStack with
  | true =>
    obtain ⟨t₁, ht₁, h'⟩ := h.push hallowed s
    cases Except.ok.inj (ht₁.symm.trans hok)
    exact h'
  | false =>
    obtain ⟨n, l⟩ := q
    obtain ⟨l, a, rfl⟩ := (List.eq_nil_or_concat' l).resolve_left hallowed
    obtain ⟨t₁, ht₁, h'⟩ := h.update s
    cases Except.ok.inj (ht₁.symm.trans hok)
    rw [latestOp, if_neg (by decide), Queue.step, List.dropLast_concat]
    exact h'

end Latest

/-! ## The coinbases of a block -/

/-- One coinbase of the total amount, or two that make it up. -/
inductive CoinbaseParts (receiver : PublicKey) (total : Amount) : List (PublicKey × Amount) → Prop
  | one : total ≠ 0 → CoinbaseParts receiver total [(receiver, total)]
  | two {amount1 amount2 : Amount} : amount1 ≠ 0 → amount2 ≠ 0 → amount1.val + amount2.val = total.val →
    CoinbaseParts receiver total [(receiver, amount1), (receiver, amount2)]

theorem CoinbaseParts.length_le {receiver : PublicKey} {total : Amount} {parts : List (PublicKey × Amount)}
    (h : CoinbaseParts receiver total parts) : parts.length ≤ 2 := by
  cases h <;> simp

/-- The circuit pushes the first amount, and what remains of the total. -/
theorem CoinbaseParts.amount {receiver : PublicKey} {total amount : Amount} {parts : List (PublicKey × Amount)}
    (h : CoinbaseParts receiver total parts)
    (hamount : coinbaseForBlockchainSnark (parts.map (·.2)) = .ok amount) :
    amount ≠ 0 ∧ ∃ remAmount, Currency.sub total amount = some remAmount ∧ ∀ stack : Stack F,
      (if remAmount = 0 then Stack.pushCoinbase O receiver amount stack
        else Stack.pushCoinbase O receiver remAmount (Stack.pushCoinbase O receiver amount stack)) =
        pushCoinbases O parts stack := by
  cases h with
  | one hne =>
    obtain rfl : total = amount := Except.ok.inj hamount
    refine ⟨hne, 0, Currency.sub_eq_some.2 ⟨le_rfl, ?_⟩, fun stack => if_pos rfl⟩
    exact (Nat.sub_self _).symm
  | @two amount1 amount2 hne₁ hne₂ hsum =>
    obtain rfl : amount1 = amount := Except.ok.inj hamount
    exact ⟨hne₁, amount2, Currency.sub_eq_some.2 ⟨by omega, by omega⟩, fun stack => if_neg hne₂⟩

variable {I : LedgerModule F}

/-- The coinbases of a block, as the circuit is told of them: two of them are
in the first partition. -/
structure BlockCoinbases (scanState : ScanState I) (receiver : PublicKey) (total : Amount)
    (txns : List (WithStatus I.Status Transaction)) : Prop where
  parts : CoinbaseParts receiver total (coinbases txns)
  inFirst : (coinbases txns).length = 2 → (ScanState.partitionIfOverflowing scanState).second.isSome →
    coinbases (txns.drop (ScanState.partitionIfOverflowing scanState).first.1.toNat) = []

/-! ## The circuit -/

section Circuit

variable [DecidableEq F] {M : MerkleTreeChecked F} (hM : Documented O M) {c : ConstraintConstants} {q : Queue F}
  {t : PendingCoinbase.T F} {proofEmitted isNewStack superchargeCoinbase : Bool} {update : Update}
  {total remAmount : Amount}

include hM

variable (isNewStack update) in
/-- The circuit performs the operation on the latest leaf and then writes the
next one. -/
theorem popThenAdd_ok (h : Holds O c.pendingCoinbaseDepth q t)
    (hmany : proofEmitted = true → 1 < q.pending.length)
    (hroom : isNewStack = true → q.pending.length < 2 ^ c.pendingCoinbaseDepth)
    (hne : isNewStack = false → q.pending ≠ []) (htotal : totalCoinbaseAmount c superchargeCoinbase = .ok total)
    (hrem : Currency.sub total update.coinbaseAmount = some remAmount) (haction : update.action.noUpdate = false)
    (hamount : update.coinbaseAmount ≠ 0) (receiver : PublicKey) (stateBodyHash : F) {first : Stack F}
    (hfirst : (let stack := pushState O (latestWorking O q isNewStack) stateBodyHash
      let withAmount := Stack.pushCoinbase O receiver update.coinbaseAmount stack
      if update.action.updateTwoStacksCoinbaseInSecond then stack
      else if remAmount = 0 then withAmount
      else Stack.pushCoinbase O receiver remAmount withAmount) = first) {p : Nat}
    (hp : bitReverse c.pendingCoinbaseDepth (followingId c.pendingCoinbaseDepth t isNewStack) = p) :
    let q₁ := (afterProof q proofEmitted).step (latestOp isNewStack first)
    let f₁ := leaves O c.pendingCoinbaseDepth q₁.removed q₁.pending
    ∃ old : Stack F, (isNewStack = false → old = newestStack O q) ∧
      popThenAdd O M c t isNewStack proofEmitted update receiver superchargeCoinbase stateBodyHash =
        .ok (stackRoot O c.pendingCoinbaseDepth
          (Function.update f₁ p (updateStack2 O update receiver stateBodyHash old (f₁ p)))) := by
  obtain ⟨t₁, hpop, hshape, hpos, hnew⟩ := popCoinbases_ok isNewStack hM h.shape (oldestId_lt h) proofEmitted rfl
  rw [popped_leaves h hmany] at hpop hshape
  have hid : newestId t₁ = newestId t := by rw [newestId, hpos, newestId]
  have hlatestId : latestStackId t₁ isNewStack = latestStackId t isNewStack := by
    rw [latestStackId, latestStackId, hpos, hnew]
  have hfollowing : bitReverse c.pendingCoinbaseDepth (followingId c.pendingCoinbaseDepth t₁ isNewStack) = p := by
    rw [followingId, hnew]
    exact hp
  obtain ⟨t₂, hadd⟩ := addCoinbase_ok isNewStack hM hshape (by rw [hnew]; exact newPos_lt h)
    (by rw [hid]; exact newestId_lt h) htotal hrem (by rw [haction, decide_eq_false hamount]) receiver stateBodyHash rfl
    hfollowing
  have hstack := latest_leaf isNewStack h hmany hroom
  have hwrite := latest_leaves isNewStack h hmany hroom hne first
  have hnewest := newest_leaf h hmany
  dsimp only at hstack hwrite
  have hupdated : firstStack O update receiver remAmount stateBodyHash
      (previousStateStack c.pendingCoinbaseDepth
        (leaves O c.pendingCoinbaseDepth (afterProof q proofEmitted).removed (afterProof q proofEmitted).pending) t₁
        isNewStack)
      (leaves O c.pendingCoinbaseDepth (afterProof q proofEmitted).removed (afterProof q proofEmitted).pending
        (bitReverse c.pendingCoinbaseDepth (latestStackId t₁ isNewStack))) = first := by
    rw [← hfirst]
    simp only [firstStack, previousStateStack, hid, hlatestId, haction, Bool.false_or, Bool.false_eq_true, if_false,
      hstack]
    rfl
  rw [hupdated, hlatestId, hwrite] at hadd
  refine ⟨leaves O c.pendingCoinbaseDepth (afterProof q proofEmitted).removed (afterProof q proofEmitted).pending
    (bitReverse c.pendingCoinbaseDepth (latestStackId t isNewStack)), fun hold => ?_, ?_⟩
  · subst hold
    exact hnewest
  · rw [popThenAdd, h.shape.merkleRoot, Prover.andThen_of_ok hpop, hadd]
    rfl

omit hM [DecidableEq F] in
/-- The leaf after the latest one is free, and writing it adds a stack. -/
theorem second_leaf (h : Holds O depth q t) (hmany : proofEmitted = true → 1 < q.pending.length)
    (hroom : q.pending.length < 2 ^ depth) (hne : q.pending ≠ []) (first second : Stack F) :
    let q₁ := (afterProof q proofEmitted).step (latestOp false first)
    let f₁ := leaves O depth q₁.removed q₁.pending
    f₁ (bitReverse depth (followingId depth t false)) = Stack.empty O ∧
      Function.update f₁ (bitReverse depth (followingId depth t false)) second =
        leaves O depth (q₁.step (.push second)).removed (q₁.step (.push second)).pending := by
  have hend := afterProof_end q proofEmitted
  have hle := afterProof_length_le q proofEmitted
  have hpos := List.length_pos_of_ne_nil (afterProof_ne_nil hmany hne)
  generalize afterProof q proofEmitted = q' at *
  have hlen : (q'.step (latestOp false first)).pending.length = q'.pending.length := by
    simp only [latestOp, Bool.false_eq_true, if_false, Queue.step, List.length_append, List.length_dropLast,
      List.length_singleton]
    omega
  have hfollowing : bitReverse depth (followingId depth t false) =
      position depth ((q'.step (latestOp false first)).removed + (q'.step (latestOp false first)).pending.length) := by
    have hremoved : (q'.step (latestOp false first)).removed = q'.removed := rfl
    rw [hlen, hremoved, hend, followingId, if_neg (by decide), h.newPos, position]
  dsimp only
  rw [hfollowing]
  exact ⟨next_leaf _ (by omega), (leaves_append O second (by omega)).symm⟩

variable {parts : List (PublicKey × Amount)} {amount : Amount} {receiver : PublicKey}

/-- One stack is updated, or opened. -/
theorem updateOne_root (h : Holds O c.pendingCoinbaseDepth q t)
    (hmany : proofEmitted = true → 1 < q.pending.length)
    (hroom : isNewStack = true → q.pending.length < 2 ^ c.pendingCoinbaseDepth)
    (hne : isNewStack = false → q.pending ≠ []) (htotal : totalCoinbaseAmount c superchargeCoinbase = .ok total)
    (hrem : Currency.sub total amount = some remAmount) (hamount : amount ≠ 0) (stateBodyHash : F)
    (hpush : ∀ stack : Stack F, (if remAmount = 0 then Stack.pushCoinbase O receiver amount stack
      else Stack.pushCoinbase O receiver remAmount (Stack.pushCoinbase O receiver amount stack)) =
        pushCoinbases O parts stack) :
    let first := pushCoinbases O parts (pushState O (latestWorking O q isNewStack) stateBodyHash)
    let q' := (afterProof q proofEmitted).run (stackOps isNewStack (.updateOne first))
    popThenAdd O M c t isNewStack proofEmitted ⟨.updateOne, amount⟩ receiver superchargeCoinbase stateBodyHash =
      .ok (stackRoot O c.pendingCoinbaseDepth (leaves O c.pendingCoinbaseDepth q'.removed q'.pending)) := by
  obtain ⟨old, -, hroot⟩ := popThenAdd_ok hM isNewStack ⟨.updateOne, amount⟩ h hmany hroom hne htotal hrem rfl hamount
    receiver stateBodyHash (hpush (pushState O (latestWorking O q isNewStack) stateBodyHash)) rfl
  rw [hroot]
  refine congrArg (fun f => Except.ok (stackRoot O c.pendingCoinbaseDepth f)) ?_
  exact Function.update_eq_self _ _

/-- The transactions go on to a next tree, and the coinbases are on the first
one. -/
theorem updateTwo_root_first (h : Holds O c.pendingCoinbaseDepth q t)
    (hmany : proofEmitted = true → 1 < q.pending.length) (hroom : q.pending.length < 2 ^ c.pendingCoinbaseDepth)
    (hne : q.pending ≠ []) (htotal : totalCoinbaseAmount c superchargeCoinbase = .ok total)
    (hrem : Currency.sub total amount = some remAmount) (hamount : amount ≠ 0) (stateBodyHash : F)
    (hpush : ∀ stack : Stack F, (if remAmount = 0 then Stack.pushCoinbase O receiver amount stack
      else Stack.pushCoinbase O receiver remAmount (Stack.pushCoinbase O receiver amount stack)) =
        pushCoinbases O parts stack) :
    let first := pushCoinbases O parts (pushState O (newestStack O q) stateBodyHash)
    let second := pushState O (Stack.createWith O (newestStack O q)) stateBodyHash
    let q' := (afterProof q proofEmitted).run (stackOps false (.updateTwo first second))
    popThenAdd O M c t false proofEmitted ⟨.updateTwoCoinbaseInFirst, amount⟩ receiver superchargeCoinbase
        stateBodyHash =
      .ok (stackRoot O c.pendingCoinbaseDepth (leaves O c.pendingCoinbaseDepth q'.removed q'.pending)) := by
  obtain ⟨old, hold, hroot⟩ := popThenAdd_ok hM false ⟨.updateTwoCoinbaseInFirst, amount⟩ h hmany
    (fun hnew => absurd hnew (by decide)) (fun _ => hne) htotal hrem rfl hamount receiver
    stateBodyHash (hpush (pushState O (newestStack O q) stateBodyHash)) rfl
  obtain ⟨hempty, hwrite⟩ := second_leaf h hmany hroom hne
    (pushCoinbases O parts (pushState O (newestStack O q) stateBodyHash))
    (pushState O (Stack.createWith O (newestStack O q)) stateBodyHash)
  rw [hroot, hempty, hold rfl]
  exact congrArg (fun f => Except.ok (stackRoot O c.pendingCoinbaseDepth f)) hwrite

/-- The coinbase is on the next tree. -/
theorem updateTwo_root_second (h : Holds O c.pendingCoinbaseDepth q t)
    (hmany : proofEmitted = true → 1 < q.pending.length) (hroom : q.pending.length < 2 ^ c.pendingCoinbaseDepth)
    (hne : q.pending ≠ []) (htotal : totalCoinbaseAmount c superchargeCoinbase = .ok total)
    (hrem : Currency.sub total amount = some remAmount) (hamount : amount ≠ 0) (receiver : PublicKey)
    (stateBodyHash : F) :
    let first := pushState O (newestStack O q) stateBodyHash
    let second := pushCoinbases O [(receiver, amount)]
      (pushState O (Stack.createWith O (newestStack O q)) stateBodyHash)
    let q' := (afterProof q proofEmitted).run (stackOps false (.updateTwo first second))
    popThenAdd O M c t false proofEmitted ⟨.updateTwoCoinbaseInSecond, amount⟩ receiver superchargeCoinbase
        stateBodyHash =
      .ok (stackRoot O c.pendingCoinbaseDepth (leaves O c.pendingCoinbaseDepth q'.removed q'.pending)) := by
  obtain ⟨old, hold, hroot⟩ := popThenAdd_ok hM false ⟨.updateTwoCoinbaseInSecond, amount⟩ h hmany
    (fun hnew => absurd hnew (by decide)) (fun _ => hne) htotal hrem rfl hamount receiver
    stateBodyHash rfl rfl
  obtain ⟨hempty, hwrite⟩ := second_leaf h hmany hroom hne (pushState O (newestStack O q) stateBodyHash)
    (pushCoinbases O [(receiver, amount)] (pushState O (Stack.createWith O (newestStack O q)) stateBodyHash))
  rw [hroot]
  refine congrArg (fun f => Except.ok (stackRoot O c.pendingCoinbaseDepth f)) (Eq.trans ?_ hwrite)
  refine congrArg (Function.update _ _) ?_
  refine (congrArg _ hempty).trans ?_
  rw [hold rfl]
  rfl

end Circuit

/-! ## The staged ledger's update of the collection -/

section Collection

variable [DecidableEq F] {q : Queue F} {t t' : PendingCoinbase.T F} {proof : Option (LedgerProof F)}

theorem Holds.afterProof (h : Holds O depth q t) (hmany : proof.isSome = true → 1 < q.pending.length)
    {t₁ : PendingCoinbase.T F}
    (hok : (match proof with
      | some proof =>
        (removeCoinbaseStack O depth t).andThen fun r =>
          if r.1 = proof.statement.pendingCoinbaseStackState.target then .ok r.2
          else
            .error ("Pending coinbase stack of the ledger proof did not match the oldest stack in the pending " ++
              "coinbase tree.")
      | none => .ok t) = .ok t₁) : Holds O depth (afterProof q proof.isSome) t₁ := by
  cases proof with
  | none =>
    cases hok
    exact h
  | some proof =>
    obtain ⟨r, hr, hok⟩ := Exn.andThen_eq_ok.1 hok
    split at hok
    · cases hok
      obtain ⟨n, l⟩ := q
      have hlen : 1 < l.length := hmany rfl
      cases l with
      | nil => cases hlen
      | cons s l =>
        obtain ⟨t₂, ht₂, h'⟩ := h.remove
        cases Except.ok.inj (ht₂.symm.trans hr)
        rw [Option.isSome_some, StagedLedger.afterProof, if_pos rfl, Queue.step, List.length_cons,
          Nat.min_eq_left (by omega), List.tail_cons]
        exact h'
    · cases hok

theorem Holds.updatePendingCoinbaseCollection (h : Holds O depth q t)
    (hmany : proof.isSome = true → 1 < q.pending.length) {stackUpdate : StackUpdate F} {isNewStack : Bool}
    (hallowed : (StagedLedger.afterProof q proof.isSome).AllAllowed depth (stackOps isNewStack stackUpdate))
    (hok : updatePendingCoinbaseCollection O depth t stackUpdate isNewStack proof = .ok t') :
    Holds O depth ((StagedLedger.afterProof q proof.isSome).run (stackOps isNewStack stackUpdate)) t' := by
  obtain ⟨t₁, hproof, hok⟩ := Exn.andThen_eq_ok.1 hok
  have h₁ := Holds.afterProof h hmany hproof
  cases stackUpdate with
  | updateNone =>
    cases hok
    exact h₁
  | updateOne stack1 => exact Holds.latest isNewStack h₁ hallowed.1 hok
  | updateTwo stack1 stack2 =>
    obtain ⟨t₂, hupdate, hpush⟩ := Exn.andThen_eq_ok.1 hok
    have h₂ := Holds.latest false h₁ hallowed.1 hupdate
    exact Holds.latest true h₂ hallowed.2.1 hpush

end Collection

end Mina.StagedLedger
