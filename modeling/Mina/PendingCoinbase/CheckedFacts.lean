/-
What the circuit computes over a collection with the stacks `f` at its leaves
(`Shape`): popping empties the leaf of the oldest stack or writes it back, and
adding a coinbase writes the leaf of the latest stack and then that of the
next one. The root it ends with is the one of the leaves so written.
-/
import Mina.PendingCoinbase.Checked
import Mina.PendingCoinbase.PendingCoinbaseFacts

namespace Mina.PendingCoinbase

open Merkle SparseLedger

variable {F : Type} (O : RandomOracle F) {depth : Nat} {f : Nat → Stack F} {t : T F}

/-! ## The root that a path implies -/

/-- The hashes beside the path from the leaf at `p` to the root. -/
def siblings (depth : Nat) (f : Nat → Stack F) (p : Nat) : List F :=
  ((pathTo (merkleTree O) depth f p).map stepHash).reverse

theorem impliedRoot_concat (sibling : F) : ∀ (path : List F) (height : Nat) (acc : F) (addr : Nat),
    impliedRoot O height acc addr (path ++ [sibling]) =
      if addr / 2 ^ path.length % 2 = 1 then
        O.coinbaseMerkleTree (height + path.length : Nat) sibling (impliedRoot O height acc addr path)
      else O.coinbaseMerkleTree (height + path.length : Nat) (impliedRoot O height acc addr path) sibling
  | [], height, acc, addr => by
    rw [List.length_nil, Nat.pow_zero, Nat.div_one, Nat.add_zero]
    rfl
  | h :: path, height, acc, addr => by
    rw [List.cons_append, impliedRoot, impliedRoot, impliedRoot_concat sibling path, List.length_cons,
      Nat.div_div_eq_div_mul, ← Nat.pow_succ', Nat.add_assoc, Nat.add_comm 1]

theorem length_siblings (depth : Nat) (f : Nat → Stack F) (p : Nat) : (siblings O depth f p).length = depth := by
  rw [siblings, List.length_reverse, List.length_map, length_pathTo]

/-- A path with a new leaf implies the root of the tree with that leaf. -/
theorem impliedRoot_siblings_mod (s : Stack F) (addr : Nat) : ∀ (depth : Nat) (f : Nat → Stack F),
    impliedRoot O 0 (Stack.dataHash O s) addr (siblings O depth f (addr % 2 ^ depth)) =
      stackRoot O depth (Function.update f (addr % 2 ^ depth) s)
  | 0, f => by
    rw [Nat.pow_zero, Nat.mod_one, stackRoot, rootOf_zero, Function.update_self]
    rfl
  | h + 1, f => by
    have hlt := Nat.mod_lt addr (Nat.two_pow_pos h)
    rw [stackRoot, rootOf_succ]
    by_cases hbit : addr / 2 ^ h % 2 = 1
    · have hpath : siblings O (h + 1) f (addr % 2 ^ (h + 1)) =
          siblings O h (rightHalf h f) (addr % 2 ^ h) ++ [rootOf (merkleTree O) h f] := by
        rw [siblings, mod_succ_right hbit, pathTo, if_neg (by omega), Nat.add_sub_cancel, List.map_cons,
          List.reverse_cons]
        rfl
      rw [hpath, impliedRoot_concat, length_siblings, if_pos hbit, impliedRoot_siblings_mod s addr h,
        mod_succ_right hbit, rightHalf_update_right, Nat.zero_add,
        rootOf_congr (merkleTree O) fun i hi => update_of_lt f s hi (addr % 2 ^ h)]
      rfl
    · have hpath : siblings O (h + 1) f (addr % 2 ^ (h + 1)) =
          siblings O h f (addr % 2 ^ h) ++ [rootOf (merkleTree O) h (rightHalf h f)] := by
        rw [siblings, half_of_index hbit, pathTo, if_pos hlt, List.map_cons, List.reverse_cons]
        rfl
      rw [hpath, impliedRoot_concat, length_siblings, if_neg hbit, impliedRoot_siblings_mod s addr h,
        half_of_index hbit, rightHalf_update_left hlt, Nat.zero_add]
      rfl

theorem impliedRoot_siblings {p : Nat} (hp : p < 2 ^ depth) (s : Stack F) (f : Nat → Stack F) :
    impliedRoot O 0 (Stack.dataHash O s) p (siblings O depth f p) = stackRoot O depth (Function.update f p s) := by
  have h := impliedRoot_siblings_mod O s p depth f
  rwa [Nat.mod_eq_of_lt hp] at h

theorem impliedRoot_self {p : Nat} (hp : p < 2 ^ depth) (f : Nat → Stack F) :
    impliedRoot O 0 (Stack.dataHash O (f p)) p (siblings O depth f p) = stackRoot O depth f := by
  rw [impliedRoot_siblings O hp, Function.update_eq_self]

/-! ## The answers of the handler -/

section Handler

variable {O} {p : Nat} (isNewStack : Bool)

theorem Shape.coinbaseStackPathExn (hs : Shape O depth f t) (hp : p < 2 ^ depth) :
    coinbaseStackPathExn O t p = .ok (siblings O depth f p) := by
  have hgo := pathGo_complete (merkleTree O) p depth f []
  rw [List.append_nil, Nat.mod_eq_of_lt hp] at hgo
  rw [PendingCoinbase.coinbaseStackPathExn, path, pathExn, hs.tree, hs.depth_eq, hgo, Exn.andThen_ok, List.map_reverse,
    siblings]

theorem Shape.getCoinbaseStack (hs : Shape O depth f t) (hp : p < 2 ^ depth) :
    handler O depth isNewStack _ (.getCoinbaseStack p) t = .ok ((f p, siblings O depth f p), t) :=
  (Exn.andThen_of_ok (hs.getStack hp) _).trans (Exn.andThen_of_ok (hs.coinbaseStackPathExn hp) _)

/-- The circuit does not look at the ids after it has set a stack. -/
theorem Shape.setCoinbaseStack (hs : Shape O depth f t) (hnew : t.newPos < 2 ^ depth) (hp : p < 2 ^ depth)
    (s : Stack F) :
    ∃ t', handler O depth isNewStack _ (.setCoinbaseStack p s) t = .ok ((), t') ∧
      Shape O depth (Function.update f p s) t' ∧ t'.newPos < 2 ^ depth := by
  cases isNewStack with
  | false =>
    obtain ⟨t', ht', hshape, -, hnext⟩ := hs.setStack hp s
    exact ⟨t', Exn.andThen_of_ok ht' _, hshape, hnext ▸ hnew⟩
  | true =>
    obtain ⟨t', ht', hshape, -, hnext⟩ := hs.setStack_new hnew hp s
    refine ⟨t', Exn.andThen_of_ok ht' _, hshape, ?_⟩
    rw [hnext]
    exact Nat.mod_lt _ (Nat.two_pow_pos depth)

/-- The newest id, or zero. -/
def newestId (t : T F) : Nat := t.posList.head?.getD 0

/-- The stack of state body hashes that a block goes on from. -/
def previousStateStack (depth : Nat) (f : Nat → Stack F) (t : T F) (isNewStack : Bool) : StateStack F :=
  let newest := f (bitReverse depth (newestId t))
  if isNewStack then StateStack.create newest.state.curr else newest.state

theorem Shape.getPreviousStack (hs : Shape O depth f t) (hid : newestId t < 2 ^ depth) :
    handler O depth isNewStack _ .getPreviousStack t = .ok (previousStateStack depth f t isNewStack, t) := by
  have hnewest := hs.getStack (bitReverse_lt depth (newestId t))
  cases isNewStack with
  | false =>
    have hlatest : latestStack t false = .ok (f (bitReverse depth (newestId t))) :=
      (Exn.andThen_of_ok (hs.index _ hid) _).trans (Exn.andThen_of_ok hnewest _)
    exact Exn.andThen_of_ok hlatest _
  | true =>
    have hcurrent : currentStack t = .ok (f (bitReverse depth (newestId t))) := hs.get_id hid
    exact Exn.andThen_of_ok hcurrent _

/-- The id after the latest one. -/
def followingId (depth : Nat) (t : T F) (isNewStack : Bool) : Nat :=
  if isNewStack then (t.newPos + 1) % 2 ^ depth else t.newPos

theorem followingId_lt (hnew : t.newPos < 2 ^ depth) : followingId depth t isNewStack < 2 ^ depth := by
  rw [followingId]
  split
  · exact Nat.mod_lt _ (Nat.two_pow_pos depth)
  · exact hnew

theorem latestStackId_lt (hnew : t.newPos < 2 ^ depth) (hid : newestId t < 2 ^ depth) :
    latestStackId t isNewStack < 2 ^ depth := by
  rw [latestStackId]
  split
  · exact hnew
  · exact hid

theorem Shape.findIndexOfNewestStacks (hs : Shape O depth f t) (hnew : t.newPos < 2 ^ depth)
    (hid : newestId t < 2 ^ depth) (action : Update.Action) :
    handler O depth isNewStack _ (.findIndexOfNewestStacks action) t =
      .ok ((bitReverse depth (latestStackId t isNewStack), bitReverse depth (followingId depth t isNewStack)), t) := by
  have hfollowing : nextStackIdOrZero depth t isNewStack = followingId depth t isNewStack := by
    rw [nextStackIdOrZero, nextStackId, followingId]
    cases isNewStack with
    | false => rfl
    | true => rw [if_pos rfl, if_pos rfl, nextIndex_eq hnew]
  have hnext : findIndex t (nextStackIdOrZero depth t isNewStack) =
      .ok (bitReverse depth (followingId depth t isNewStack)) := by
    rw [hfollowing, hs.index _ (followingId_lt isNewStack hnew)]
  have hlatest := hs.index _ (latestStackId_lt isNewStack hnew hid)
  exact (Exn.andThen_of_ok hlatest _).trans (Exn.andThen_of_ok hnext _)

end Handler

/-! ## The circuit -/

section Circuit

variable {O} [DecidableEq F] {p : Nat} (isNewStack : Bool)

theorem fetchAndUpdateReq_ok (hs : Shape O depth f t) (hnew : t.newPos < 2 ^ depth) (hp : p < 2 ^ depth)
    {g : Stack F → Prover F (Stack F)} {next : Stack F} (hg : g (f p) t = .ok (next, t)) :
    ∃ t', fetchAndUpdateReq O (reraiseMerkleRequests (handler O depth isNewStack)) (stackRoot O depth f) p g t =
        .ok ((stackRoot O depth (Function.update f p next), f p, next), t') ∧
      Shape O depth (Function.update f p next) t' ∧ t'.newPos < 2 ^ depth := by
  obtain ⟨t', hset, hs', hnew'⟩ := hs.setCoinbaseStack isNewStack hnew hp next
  refine ⟨t', ?_, hs', hnew'⟩
  have hget : reraiseMerkleRequests (handler O depth isNewStack) _ (.getElement p) t =
      .ok ((f p, siblings O depth f p), t) := hs.getCoinbaseStack isNewStack hp
  have hset' : reraiseMerkleRequests (handler O depth isNewStack) _ (.set p next) t = .ok ((), t') := hset
  rw [fetchAndUpdateReq, Prover.andThen_of_ok hget,
    Prover.andThen_of_ok (Prover.assert_of_true (decide_eq_true (impliedRoot_self O hp f)) t),
    Prover.andThen_of_ok hg, Prover.andThen_of_ok hset', impliedRoot_siblings O hp]
  rfl

/-- The stack at the oldest leaf after a pop. -/
def poppedStack (O : RandomOracle F) (proofEmitted : Bool) (oldest : Stack F) : Stack F :=
  if proofEmitted then Stack.empty O else oldest

variable {M : MerkleTreeChecked F} (hM : Documented O M)

include hM

theorem popCoinbases_ok (hs : Shape O depth f t) (hold : (oldestStackId t).getD 0 < 2 ^ depth) (proofEmitted : Bool)
    (hp : bitReverse depth ((oldestStackId t).getD 0) = p) :
    ∃ t', popCoinbases O M (handler O depth isNewStack) (stackRoot O depth f) proofEmitted t =
        .ok ((stackRoot O depth (Function.update f p (poppedStack O proofEmitted (f p))), f p), t') ∧
      Shape O depth (Function.update f p (poppedStack O proofEmitted (f p))) t' ∧ t'.posList = t.posList ∧
        t'.newPos = t.newPos := by
  have hlt : p < 2 ^ depth := hp ▸ bitReverse_lt _ _
  obtain ⟨t', hset, hs', hpos, hnew⟩ := hs.setStack hlt (poppedStack O proofEmitted (f p))
  have hindex : handler O depth isNewStack _ .findIndexOfOldestStack t = .ok (p, t) := by
    rw [← hp]
    exact Exn.andThen_of_ok (hs.index _ hold) _
  have hset' : handler O depth isNewStack _
      (.setOldestCoinbaseStack p (poppedStack O proofEmitted (f p))) t = .ok ((), t') :=
    Exn.andThen_of_ok hset _
  refine ⟨t', ?_, hs', hpos, hnew⟩
  rw [popCoinbases, hM.impliedRoot_eq, Prover.andThen_of_ok hindex,
    Prover.andThen_of_ok (hs.getCoinbaseStack isNewStack hlt),
    Prover.andThen_of_ok (Prover.assert_of_true (decide_eq_true (impliedRoot_self O hlt f)) t)]
  refine (Prover.andThen_of_ok hset' _).trans ?_
  rw [Prover.pure, ← impliedRoot_siblings O hlt]
  rfl

omit hM

/-- The new first stack, from the stack at its leaf and the state stack before
it. -/
def firstStack (O : RandomOracle F) (update : Update) (coinbaseReceiver : PublicKey) (remAmount : Amount)
    (stateBodyHash : F) (previous : StateStack F) (stack : Stack F) : Stack F :=
  let stack := if update.action.noUpdate then stack else Stack.pushState O stateBodyHash { stack with state := previous }
  let withAmount := Stack.pushCoinbase O coinbaseReceiver update.coinbaseAmount stack
  if update.action.noUpdate || update.action.updateTwoStacksCoinbaseInSecond then stack
  else if remAmount = 0 then withAmount
  else Stack.pushCoinbase O coinbaseReceiver remAmount withAmount

omit [DecidableEq F] in
theorem updateStack1_ok {c : ConstraintConstants} {update : Update} {superchargeCoinbase : Bool}
    {total remAmount : Amount} (hs : Shape O depth f t) (hid : newestId t < 2 ^ depth)
    (htotal : totalCoinbaseAmount c superchargeCoinbase = .ok total)
    (hrem : Currency.sub total update.coinbaseAmount = some remAmount)
    (hzero : update.action.noUpdate = decide (update.coinbaseAmount = 0)) (coinbaseReceiver : PublicKey)
    (stateBodyHash : F) (stack : Stack F) :
    updateStack1 O c (handler O depth isNewStack) update coinbaseReceiver superchargeCoinbase stateBodyHash stack t =
      .ok (firstStack O update coinbaseReceiver remAmount stateBodyHash (previousStateStack depth f t isNewStack) stack,
        t) := by
  have hstate : updateStateStack O (handler O depth isNewStack) update.action stateBodyHash stack t =
      .ok (if update.action.noUpdate then stack else
        Stack.pushState O stateBodyHash { stack with state := previousStateStack depth f t isNewStack }, t) := by
    rw [updateStateStack, Prover.andThen_of_ok (hs.getPreviousStack isNewStack hid)]
    rfl
  have htotal' : (Prover.ofExn (totalCoinbaseAmount c superchargeCoinbase) : Prover F Amount) t = .ok (total, t) := by
    rw [Prover.ofExn, htotal, Exn.andThen_ok]
  have hrem' : (Prover.ofExn (checkedSub total update.coinbaseAmount) : Prover F Amount) t = .ok (remAmount, t) := by
    rw [Prover.ofExn, checkedSub, hrem]
    rfl
  rw [updateStack1, Prover.andThen_of_ok hstate, Prover.andThen_of_ok htotal', Prover.andThen_of_ok hrem',
    Prover.andThen_of_ok (Prover.assert_of_true (by rw [hzero, beq_self_eq_true]) t), firstStack, Prover.pure]
  simp only [decide_eq_true_eq]

include hM

/-- What adding a coinbase does to the leaves. -/
theorem addCoinbase_ok {c : ConstraintConstants} {update : Update} {superchargeCoinbase : Bool}
    {total remAmount : Amount} (hs : Shape O depth f t) (hnew : t.newPos < 2 ^ depth)
    (hid : newestId t < 2 ^ depth) (htotal : totalCoinbaseAmount c superchargeCoinbase = .ok total)
    (hrem : Currency.sub total update.coinbaseAmount = some remAmount)
    (hzero : update.action.noUpdate = decide (update.coinbaseAmount = 0)) (coinbaseReceiver : PublicKey)
    (stateBodyHash : F) {p₁ p₂ : Nat} (hp₁ : bitReverse depth (latestStackId t isNewStack) = p₁)
    (hp₂ : bitReverse depth (followingId depth t isNewStack) = p₂) :
    let f₁ := Function.update f p₁ (firstStack O update coinbaseReceiver remAmount stateBodyHash
      (previousStateStack depth f t isNewStack) (f p₁))
    ∃ t', addCoinbase O M c (handler O depth isNewStack) (stackRoot O depth f) update coinbaseReceiver
        superchargeCoinbase stateBodyHash t =
      .ok (stackRoot O depth (Function.update f₁ p₂
        (updateStack2 O update coinbaseReceiver stateBodyHash (f p₁) (f₁ p₂))), t') := by
  have hlt₁ : p₁ < 2 ^ depth := hp₁ ▸ bitReverse_lt _ _
  have hlt₂ : p₂ < 2 ^ depth := hp₂ ▸ bitReverse_lt _ _
  have haddr := hs.findIndexOfNewestStacks isNewStack hnew hid update.action
  rw [hp₁, hp₂] at haddr
  obtain ⟨t₁, hfirst, hs₁, hnew₁⟩ := fetchAndUpdateReq_ok isNewStack hs hnew hlt₁
    (updateStack1_ok isNewStack hs hid htotal hrem hzero coinbaseReceiver stateBodyHash (f p₁))
  obtain ⟨t₂, hsecond, -, -⟩ := fetchAndUpdateReq_ok isNewStack hs₁ hnew₁ hlt₂
    (g := fun stack0 => Prover.pure (updateStack2 O update coinbaseReceiver stateBodyHash (f p₁) stack0)) rfl
  refine ⟨t₂, ?_⟩
  rw [addCoinbase, hM.fetchAndUpdateReq_eq, Prover.andThen_of_ok haddr, Prover.andThen_of_ok hfirst]
  exact Prover.andThen_of_ok hsecond _

end Circuit

end Mina.PendingCoinbase
