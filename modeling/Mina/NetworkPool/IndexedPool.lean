/-
The transaction pool's indexed store (`network_pool/indexed_pool.ml`),
function by function.

A pool is one set of commands under six indices: a queue for each sender,
two maps by fee (all commands, and the heads of the queues), a map by hash,
a map by expiry, and a count. Every operation updates the indices by hand.

What the source takes from outside the file is a parameter: the hash of a
command (`TransactionHash`, injective), the verifier, and the clock. One
call reads the clock at each `check_expiry`, and a call that re-adds
commands does so several times, so the clock is a function of the place of
the reading in the tree of calls.
-/
import Mina.NetworkPool.FSequenceFacts
import Mina.NetworkPool.MapSet
import Mina.Base.UserCommand

namespace Mina

open Std (ExtTreeMap ExtTreeSet)
open FSequence (FSeq)

/-- `Transaction_hash`: a hash of commands that tells them apart. -/
structure TransactionHash where
  Hash : Type
  order : LinearOrder Hash
  hashCommand : UserCommand → Hash
  injective : Function.Injective hashCommand

attribute [instance] TransactionHash.order

/-- `Transaction_hash.User_command_with_valid_signature.t`: a command with
its hash. The accessors of `User_command` that can raise do not raise on it
(`Snapp_command.check` sees to that); what they answer is kept beside it. -/
structure Command (H : TransactionHash) where
  data : UserCommand
  hash : H.Hash
  fee : Fee
  feePayer : AccountId
  nonce : AccountNonce
  hash_eq : H.hashCommand data = hash
  fee_eq : data.feeExn = .ok fee
  feePayer_eq : data.feePayer = .ok feePayer
  nonce_eq : data.nonceExn = .ok nonce

namespace Command

variable {H : TransactionHash}

theorem ext_hash {c d : Command H} (h : c.hash = d.hash) : c = d := by
  have hdata : c.data = d.data := H.injective (by rw [c.hash_eq, d.hash_eq, h])
  obtain ⟨data, hash, fee, feePayer, nonce, h₁, h₂, h₃, h₄⟩ := c
  obtain ⟨data', hash', fee', feePayer', nonce', h₁', h₂', h₃', h₄'⟩ := d
  cases hdata
  cases h
  cases h₂.symm.trans h₂'
  cases h₃.symm.trans h₃'
  cases h₄.symm.trans h₄'
  rfl

/-- Commands are compared on hashes only. -/
instance : LinearOrder (Command H) := LinearOrder.lift' (·.hash) fun _ _ => ext_hash

def validUntil (c : Command H) : GlobalSlot := c.data.validUntil

end Command

/-- The constraint constants the pool reads. -/
structure PoolConstants where
  accountCreationFee : Fee
  /-- `fork`'s `previous_global_slot`. -/
  fork : Option GlobalSlot

structure IndexedPool (H : TransactionHash) where
  /-- Transactions valid against the current ledger, indexed by fee. -/
  applicableByFee : MapSet Fee (Command H)
  /-- All pending transactions along with the total currency required to
  execute them, indexed by sender account and ordered by nonce. -/
  allBySender : ExtTreeMap AccountId (FSeq (Command H) × Amount) compare
  allByFee : MapSet Fee (Command H)
  allByHash : ExtTreeMap H.Hash (Command H) compare
  /-- Only transactions that have an expiry. -/
  transactionsWithExpiration : MapSet GlobalSlot (Command H)
  size : Int
  constants : PoolConstants

/-- The nonces an `Invalid_nonce` error says would have been valid. -/
inductive ValidNonce where
  | expected (nonce : AccountNonce)
  | between (low high : AccountNonce)

inductive CommandError where
  | invalidNonce (valid : ValidNonce) (nonce : AccountNonce)
  | insufficientFunds (balance consumed : Amount)
  | insufficientReplaceFee (replaceFee fee : Fee)
  | overflow
  | badToken
  | expired (validUntil currentGlobalSlot : GlobalSlot)
  | unwantedFeeToken (tokenId : TokenId)
  | invalidTransaction

namespace IndexedPool

variable {H : TransactionHash}

/-- Fee increase required to replace a transaction. -/
def replaceFee : Fee := 5000000000

/-! ## Currency consumed -/

/-- What a snapp command takes from its fee payer besides the fee: the first
negative delta of a party that is the fee payer, or of any party when there
is no separate fee payment. -/
def snappConsumed (c : SnappCommand) : Amount :=
  let feePayer := c.feePayment.map fun p => (⟨p.pk, p.tokenId⟩ : AccountId)
  let spent (p : PartyBody) : Option Amount :=
    match feePayer with
    | some payer =>
      if payer ≠ ⟨p.pk, c.tokenId⟩ then none
      else match p.delta.sgn with
        | .pos => none
        | .neg => some p.delta.magnitude
    | none =>
      match p.delta.sgn with
      | .pos => none
      | .neg => some p.delta.magnitude
  ((c.bodies.1 :: c.bodies.2.toList).findSome? spent).getD 0

/-- The currency a command takes from its sender besides the fee. -/
def bodyConsumed (K : PoolConstants) : UserCommand → Amount
  | .signedCommand c =>
    match c.payload.body with
    | .payment p => if c.payload.common.feeToken = p.tokenId then p.amount else 0
    | .stakeDelegation _ _ => 0
    | .createNewToken _ => K.accountCreationFee
    | .createTokenAccount _ => K.accountCreationFee
    | .mintTokens _ => 0
  | .snappCommand c => snappConsumed c

/-- The total currency required from the sender to execute a command, or
`none` in case of overflow. -/
def currencyConsumed (K : PoolConstants) (c : Command H) : Option Amount :=
  Currency.add c.fee (bodyConsumed K c.data)

/-! ## Queries -/

def empty (K : PoolConstants) : IndexedPool H where
  applicableByFee := ∅
  allBySender := ∅
  allByFee := ∅
  allByHash := ∅
  transactionsWithExpiration := ∅
  size := 0
  constants := K

/-- `Map.min_elt`. -/
def minElt {k v : Type} [LinearOrder k] (m : ExtTreeMap k v compare) : Option (k × v) := m.toList.head?

def member (t : IndexedPool H) (cmd : Command H) : Bool := t.allByHash.contains cmd.hash

/-- `now` is the global slot of the clock's reading. -/
def currentGlobalSlot (t : IndexedPool H) (now : GlobalSlot) : GlobalSlot :=
  match t.constants.fork with
  | some previousGlobalSlot => GlobalSlot.add previousGlobalSlot now
  | none => now

def checkExpiry (t : IndexedPool H) (now : GlobalSlot) (cmd : Command H) : Except CommandError Unit :=
  let current := t.currentGlobalSlot now
  if cmd.validUntil < current then .error (.expired cmd.validUntil current) else .ok ()

/-! ## The indices -/

def removeFromExpirationExn (m : MapSet GlobalSlot (Command H)) (cmd : Command H) :
    Exn (MapSet GlobalSlot (Command H)) :=
  if cmd.validUntil ≠ GlobalSlot.maxValue then MapSet.removeExn m cmd.validUntil cmd else .ok m

def addToExpiration (m : MapSet GlobalSlot (Command H)) (cmd : Command H) :
    MapSet GlobalSlot (Command H) :=
  if cmd.validUntil ≠ GlobalSlot.maxValue then MapSet.insert m cmd.validUntil cmd else m

/-- Remove a command from the `applicableByFee` field. This may break an
invariant. -/
def removeApplicableExn (t : IndexedPool H) (cmd : Command H) : Exn (IndexedPool H) :=
  (MapSet.removeExn t.applicableByFee cmd.fee cmd).andThen fun applicable =>
    .ok { t with applicableByFee := applicable }

/-- Remove a command from the `allByFee` and `allByHash` fields, and
decrement `size`. This may break an invariant. -/
def removeAllByFeeAndHashAndExpirationExn (t : IndexedPool H) (cmd : Command H) :
    Exn (IndexedPool H) :=
  (MapSet.removeExn t.allByFee cmd.fee cmd).andThen fun byFee =>
  (removeFromExpirationExn t.transactionsWithExpiration cmd).andThen fun expiration =>
  .ok { t with
    allByFee := byFee
    allByHash := t.allByHash.erase cmd.hash
    transactionsWithExpiration := expiration
    size := t.size - 1 }

/-- The four indices that every added command enters, and the count. -/
def addAllByFeeAndHashAndExpiration (t : IndexedPool H) (cmd : Command H) : IndexedPool H :=
  { t with
    allByFee := MapSet.insert t.allByFee cmd.fee cmd
    allByHash := t.allByHash.insert cmd.hash cmd
    transactionsWithExpiration := addToExpiration t.transactionsWithExpiration cmd
    size := t.size + 1 }

/-! ## Removal -/

/-- One step of the sum of the currency of dropped commands. -/
def addConsumed (K : PoolConstants) (acc : Amount) (cmd : Command H) : Exn Amount :=
  Exn.valueExn ((currencyConsumed K cmd).bind fun consumed => Currency.add consumed acc)

/-- One step of taking the currency of dropped commands off a total. -/
def subConsumed (K : PoolConstants) (acc : Amount) (cmd : Command H) : Exn Amount :=
  (Exn.valueExn (currencyConsumed K cmd)).andThen fun consumed => Exn.valueExn (Currency.sub acc consumed)

/-- Remove a given command from the pool, as well as any commands that
depend on it. -/
def removeWithDependentsExn (t : IndexedPool H) (cmd : Command H) :
    Exn (List (Command H) × IndexedPool H) :=
  match t.allBySender[cmd.feePayer]? with
  | none => .error "Map.find_exn: not found"
  | some (senderQueue, reservedCurrency) =>
    Exn.assert (!senderQueue.isEmpty) <|
    (senderQueue.headExn).andThen fun firstCmd =>
    Exn.assert (cmd.nonce.val ≥ firstCmd.nonce.val) <|
    let index := cmd.nonce.val - firstCmd.nonce.val
    let (keepQueue, dropQueue) := senderQueue.splitAt index
    Exn.assert (!dropQueue.isEmpty) <|
    (dropQueue.foldExn (addConsumed t.constants) 0).andThen fun currencyToRemove =>
    (Exn.valueExn (Currency.sub reservedCurrency currencyToRemove)).andThen fun reservedCurrency' =>
    (dropQueue.foldExn removeAllByFeeAndHashAndExpirationExn t).andThen fun t' =>
    (if !keepQueue.isEmpty then
        .ok (t'.allBySender.insert cmd.feePayer (keepQueue, reservedCurrency'))
      else
        Exn.assert (reservedCurrency' = 0) <|
        .ok (t'.allBySender.erase cmd.feePayer)).andThen fun bySender =>
    (if firstCmd = cmd then MapSet.removeExn t'.applicableByFee cmd.fee cmd
      else .ok t'.applicableByFee).andThen fun applicable =>
    .ok (dropQueue.toList, { t' with allBySender := bySender, applicableByFee := applicable })

theorem toList_unsnoc_length {s s' : FSeq (Command H)} {c : Command H} (h : s.unsnoc = some (s', c)) :
    s'.toList.length < s.toList.length := by
  rw [FSeq.unsnoc_eq_some h]
  simp

/-- Drop commands from the end of the queue until the total currency
consumed is at most the current balance. -/
def dropUntilSufficientBalance (K : PoolConstants) (currentBalance : Amount) (queue : FSeq (Command H))
    (currencyReserved : Amount) (droppedSoFar : List (Command H)) :
    Exn (FSeq (Command H) × Amount × List (Command H)) :=
  if currencyReserved ≤ currentBalance then .ok (queue, currencyReserved, droppedSoFar)
  else
    match _h : queue.unsnoc with
    | none => .error
        "couldn't drop any more transactions when trying to preserve sufficient balance"
    | some (daeh, liat) =>
      (subConsumed K currencyReserved liat).andThen fun currencyReserved' =>
      dropUntilSufficientBalance K currentBalance daeh currencyReserved' (droppedSoFar ++ [liat])
termination_by queue.toList.length
decreasing_by exact toList_unsnoc_length _h

/-- One sender's step of `revalidate`. -/
def revalidateSender (t : IndexedPool H) (f : AccountId → AccountNonce × Amount)
    (acc : IndexedPool H × List (Command H)) (entry : AccountId × FSeq (Command H) × Amount) :
    Exn (IndexedPool H × List (Command H)) :=
  let (sender, queue, currencyReserved) := entry
  let (t', droppedAcc) := acc
  let (currentNonce, currentBalance) := f sender
  (queue.headExn).andThen fun firstCmd =>
  if currentNonce < firstCmd.nonce then
    -- the pool this removes from is the one `revalidate` was called with
    (removeWithDependentsExn t firstCmd).andThen fun (dropped, t'') =>
    .ok (t'', droppedAcc ++ dropped)
  else
    let idx := currentNonce.val - firstCmd.nonce.val
    let (dropQueue, keepQueue) := queue.splitAt idx
    (dropQueue.foldExn (subConsumed t.constants) currencyReserved).andThen fun currencyReserved' =>
    (dropUntilSufficientBalance t.constants currentBalance keepQueue currencyReserved' []).andThen
        fun (keepQueue', currencyReserved'', droppedForBalance) =>
    match dropQueue.toList ++ droppedForBalance with
    | [] => .ok acc
    | head :: tail =>
      (removeApplicableExn t' head).andThen fun t₁ =>
      (removeAllByFeeAndHashAndExpirationExn t₁ head).andThen fun t₂ =>
      (Exn.fold removeAllByFeeAndHashAndExpirationExn t₂ tail).andThen fun t'' =>
      .ok ({ t'' with allBySender := t''.allBySender.insert sender (keepQueue', currencyReserved'') },
        droppedAcc ++ head :: tail)

/-- Iterate over all commands in the pool, removing them if they require too
much currency or have too low of a nonce. -/
def revalidate (t : IndexedPool H) (f : AccountId → AccountNonce × Amount) :
    Exn (IndexedPool H × List (Command H)) :=
  Exn.fold (revalidateSender t f) (t, []) t.allBySender.toList

/-- One command's step of `remove_expired`. It is no longer in the pool when
it depended on an expired transaction already handled. -/
def removeExpiredCommand (acc : List (Command H) × IndexedPool H) (cmd : Command H) :
    Exn (List (Command H) × IndexedPool H) :=
  if acc.2.member cmd then
    (removeWithDependentsExn acc.2 cmd).andThen fun (removed, t') => .ok (acc.1 ++ removed, t')
  else .ok acc

def removeExpired (t : IndexedPool H) (now : GlobalSlot) : Exn (List (Command H) × IndexedPool H) :=
  let expired := t.transactionsWithExpiration.toList.filter fun p => p.1 < t.currentGlobalSlot now
  Exn.fold (fun acc p => Exn.fold removeExpiredCommand acc p.2.toList) ([], t) expired

def setAllBySender (accountId : AccountId) (commands : FSeq (Command H)) (currencyReserved : Amount)
    (t : IndexedPool H) : IndexedPool H :=
  match commands.uncons with
  | none => { t with allBySender := t.allBySender.erase accountId }
  | some (headCmd, _) =>
    { t with
      allBySender := t.allBySender.insert accountId (commands, currencyReserved)
      applicableByFee := MapSet.insert t.applicableByFee headCmd.fee headCmd }

/-- `Queued_txns_by_sender`. -/
structure QueuedTxnsBySender (H : TransactionHash) where
  message : String
  queue : List (Command H)

def handleCommittedTxn (t : IndexedPool H) (committed : Command H) (feePayerBalance : Amount)
    (feePayerNonce : AccountNonce) :
    Exn (Except (QueuedTxnsBySender H) (IndexedPool H × List (Command H))) :=
  match t.allBySender[committed.feePayer]? with
  | none => .ok (.ok (t, []))
  | some (cmds, currencyReserved) =>
    (Exn.valueExn cmds.uncons).andThen fun (firstCmd, restCmds) =>
    if committed.nonce ≠ firstCmd.nonce then
      .ok (.error
        { message := "Tried to handle a committed transaction in the pool but its nonce doesn't match the head of the queue for that sender"
          queue := cmds.toList })
    else
      (Exn.valueExn (currencyConsumed t.constants firstCmd)).andThen fun firstCmdConsumed =>
      (Exn.valueExn (Currency.sub currencyReserved firstCmdConsumed)).andThen fun currencyReserved' =>
      (removeApplicableExn t firstCmd).andThen fun t₀ =>
      (removeAllByFeeAndHashAndExpirationExn t₀ firstCmd).andThen fun t₁ =>
      -- the balance is the one after the last committed transaction
      (if AccountNonce.succ firstCmd.nonce = feePayerNonce then
          dropUntilSufficientBalance t.constants feePayerBalance restCmds currencyReserved' []
        else .ok (restCmds, currencyReserved', [])).andThen
          fun (newQueuedCmds, currencyReserved'', droppedCmds) =>
      (Exn.fold removeAllByFeeAndHashAndExpirationExn t₁ droppedCmds).andThen fun t₂ =>
      let t₃ := setAllBySender committed.feePayer newQueuedCmds currencyReserved'' t₂
      .ok (.ok (t₃, (if committed = firstCmd then [] else [firstCmd]) ++ droppedCmds))

def removeLowestFee (t : IndexedPool H) : Exn (List (Command H) × IndexedPool H) :=
  match minElt t.allByFee with
  | none => .ok ([], t)
  | some (_, minFeeSet) =>
    match minFeeSet.toList.head? with
    | none => .error "Set.min_elt_exn"
    | some cmd => removeWithDependentsExn t cmd

/-! ## Addition -/

/-- A command as it comes in: to be verified, or verified already. -/
inductive Incoming (H : TransactionHash) where
  | unchecked (cmd : Command H)
  | checked (cmd : Command H)

namespace Incoming

def command : Incoming H → Command H
  | .unchecked x => x
  | .checked x => x

/-- `verify` answers the same command, as one with a valid signature. -/
def verified (verify : Command H → Bool) : Incoming H → Except CommandError (Command H)
  | .checked x => .ok x
  | .unchecked x => if verify x then .ok x else .error .invalidTransaction

end Incoming

/-- The answer of an addition: the command, the pool and what was dropped. -/
abbrev Added (H : TransactionHash) := Except CommandError (Command H × IndexedPool H × List (Command H))

/-- Nothing is queued for the sender. -/
def addFirst (t : IndexedPool H) (verified : Except CommandError (Command H)) (cmd : Command H)
    (consumed : Amount) (currentNonce : AccountNonce) (balance : Amount) : Added H :=
  if currentNonce ≠ cmd.nonce then .error (.invalidNonce (.expected currentNonce) cmd.nonce)
  else if ¬ consumed ≤ balance then .error (.insufficientFunds balance consumed)
  else
    match verified with
    | .error err => .error err
    | .ok cmd =>
      .ok (cmd,
        { addAllByFeeAndHashAndExpiration t cmd with
          applicableByFee := MapSet.insert t.applicableByFee cmd.fee cmd
          allBySender := t.allBySender.insert cmd.feePayer (FSeq.singleton cmd, consumed) }, [])

/-- The command goes on the end of the sender's queue. -/
def addLast (t : IndexedPool H) (verified : Except CommandError (Command H)) (consumed : Amount)
    (queuedCmds : FSeq (Command H)) (reservedCurrency balance : Amount) : Added H :=
  match Currency.add consumed reservedCurrency with
  | none => .error .overflow
  | some reservedCurrency' =>
    if ¬ balance ≥ reservedCurrency' then .error (.insufficientFunds balance reservedCurrency')
    else
      match verified with
      | .error err => .error err
      | .ok cmd =>
        .ok (cmd,
          { addAllByFeeAndHashAndExpiration t cmd with
            allBySender := t.allBySender.insert cmd.feePayer (queuedCmds.snoc cmd, reservedCurrency') }, [])

/-- The second phase of re-adding: a command could not be re-added, so the
fees of all that are left come off the fee increment. -/
def chargeDropped (t' : IndexedPool H) (dropped' : List (Command H)) :
    Fee → List (Command H) → Except CommandError (IndexedPool H × Fee × List (Command H))
  | increment, [] => .ok (t', increment, dropped')
  | increment, cmd :: dropped =>
    match Currency.sub increment cmd.fee with
    | some increment => chargeDropped t' dropped' increment dropped
    | none => .error (.insufficientReplaceFee cmd.fee increment)

/-- Re-add all of the transactions that were dropped, until there are none
left or one cannot be re-added. `add i` is the `i`-th recursive call. -/
def readd (add : Nat → IndexedPool H → Command H → AccountNonce → Exn (Added H)) :
    Nat → IndexedPool H → Fee → List (Command H) → AccountNonce →
      Exn (Except CommandError (IndexedPool H × Fee × List (Command H)))
  | _, t', increment, [], _ => .ok (.ok (t', increment, []))
  | i, t', increment, cmd :: dropped', currentNonce =>
    let currentNonce := AccountNonce.succ currentNonce
    (add i t' cmd currentNonce).andThen fun
    | .ok (_, t', dropped) =>
      Exn.assert dropped.isEmpty <|
      readd add (i + 1) t' increment dropped' currentNonce
    -- the same dropped commands again, for the new fee increment
    | .error _ => .ok (chargeDropped t' dropped' increment (cmd :: dropped'))

/-- The command replaces one that is queued. -/
def replace (t : IndexedPool H) (verified : Except CommandError (Command H)) (cmd : Command H)
    (queuedCmds : FSeq (Command H)) (lastQueuedNonce currentNonce : AccountNonce)
    (add : Nat → IndexedPool H → Command H → AccountNonce → Exn (Added H)) : Exn (Added H) :=
  (queuedCmds.headExn).andThen fun firstQueued =>
  let firstQueuedNonce := firstQueued.nonce
  Exn.assert (firstQueuedNonce = currentNonce) <|
  if ¬(firstQueuedNonce ≤ cmd.nonce ∧ cmd.nonce ≤ lastQueuedNonce) then
    .ok (.error (.invalidNonce (.between firstQueuedNonce lastQueuedNonce) cmd.nonce))
  else
  Exn.assert ((queuedCmds.length : Int) = (lastQueuedNonce.val : Int) - firstQueuedNonce.val + 1) <|
  let (_, dropQueue) := queuedCmds.splitAt (cmd.nonce.val - firstQueuedNonce.val)
  (dropQueue.headExn).andThen fun toDrop =>
  Exn.assert (toDrop.nonce = cmd.nonce) <|
  if ¬ cmd.fee ≥ toDrop.fee then .ok (.error (.insufficientReplaceFee toDrop.fee cmd.fee))
  else
  (removeWithDependentsExn t toDrop).andThen fun (dropped, t') =>
  -- check that the removal dropped the right things
  Exn.assert (dropped = dropQueue.toList) <|
  match verified with
  | .error err => .ok (.error err)
  | .ok cmd =>
    (add 0 t' cmd currentNonce).andThen fun
    | .error err => .ok (.error err)
    | .ok (cmd, t'', dropped') =>
      Exn.assert dropped'.isEmpty <|
      match dropped with
      | [] => .error "Option.value_exn None"
      | dropHead :: dropTail =>
        (Exn.valueExn (Currency.sub cmd.fee toDrop.fee)).andThen fun increment =>
        (readd add 1 t'' increment dropTail currentNonce).andThen fun
        | .error err => .ok (.error err)
        | .ok (t'', increment, dropped') =>
          if ¬ increment ≥ replaceFee then .ok (.error (.insufficientReplaceFee replaceFee increment))
          else .ok (.ok (cmd, t'', dropHead :: dropped'))

/-- Add a command that came in from gossip, or return an error. The calls
nest once for a replacement; the first argument bounds the nesting. -/
def addFromGossipExn : Nat → (List Nat → GlobalSlot) → (Command H → Bool) → IndexedPool H → Incoming H →
    AccountNonce → Amount → Exn (Added H)
  | 0, _, _, _, _, _, _ => .error "out of fuel"
  | fuel + 1, clock, verify, t, cmd0, currentNonce, balance =>
    let unchecked := cmd0.command
    let verified := cmd0.verified verify
    match t.checkExpiry (clock []) unchecked with
    | .error err => .ok (.error err)
    | .ok () =>
    match currencyConsumed t.constants unchecked with
    | none => .ok (.error .overflow)
    | some consumed =>
    if !unchecked.data.checkTokens then .ok (.error .badToken)
    else if unchecked.data.feeToken ≠ TokenId.default then
      .ok (.error (.unwantedFeeToken unchecked.data.feeToken))
    else
    match t.allBySender[unchecked.feePayer]? with
    | none => .ok (addFirst t verified unchecked consumed currentNonce balance)
    | some (queuedCmds, reservedCurrency) =>
      Exn.assert (!queuedCmds.isEmpty) <|
      (queuedCmds.lastExn).andThen fun lastQueued =>
      if AccountNonce.succ lastQueued.nonce = unchecked.nonce then
        .ok (addLast t verified consumed queuedCmds reservedCurrency balance)
      else
        replace t verified unchecked queuedCmds lastQueued.nonce currentNonce fun i t' cmd nonce =>
          addFromGossipExn fuel (fun place => clock (i :: place)) verify t' (.checked cmd) nonce balance

/-- Add back a command that was in a block that is rolled back. -/
def addFromBacktrack (t : IndexedPool H) (now : GlobalSlot) (cmd : Command H) :
    Exn (Except CommandError (IndexedPool H)) :=
  match t.checkExpiry now cmd with
  | .error err => .ok (.error err)
  | .ok () =>
    (Exn.valueExn (currencyConsumed t.constants cmd)).andThen fun consumed =>
    match t.allBySender[cmd.feePayer]? with
    | none =>
      .ok (.ok { addAllByFeeAndHashAndExpiration t cmd with
        applicableByFee := MapSet.insert t.applicableByFee cmd.fee cmd
        allBySender := t.allBySender.insert cmd.feePayer (FSeq.singleton cmd, consumed) })
    | some (queue, currencyReserved) =>
      (queue.headExn).andThen fun firstQueued =>
      if AccountNonce.succ cmd.nonce ≠ firstQueued.nonce then
        .error "indexed pool nonces inconsistent when adding from backtrack."
      else
        (removeApplicableExn t firstQueued).andThen fun t' =>
        (Exn.valueExn (Currency.add currencyReserved consumed)).andThen fun currencyReserved' =>
        .ok (.ok { addAllByFeeAndHashAndExpiration t' cmd with
          applicableByFee := MapSet.insert t'.applicableByFee cmd.fee cmd
          allBySender := t'.allBySender.insert cmd.feePayer (queue.cons cmd, currencyReserved') })

end IndexedPool

end Mina
