/-
The choice of the works that a coinbase pays for (`Resources.coinbase_work`
of `staged_ledger.ml`): the cheapest work, or the two cheapest for a coinbase
of two parts, when the coinbase can afford them.

`taken` are the works whose statements are removed from the list, `paid` those
of them that get a fee transfer. They differ when the cheapest work is free:
then no part has a fee transfer, but both works are removed.
-/
import Mina.StagedLedger.ScanState
import Mina.Base.FeeMap

namespace Mina.StagedLedger

/-- `Staged_ledger_diff.At_most_two.t`. -/
inductive AtMostTwo (α : Type) where
  | zero
  | one (x : Option α)
  | two (x : Option (α × Option α))
deriving DecidableEq

namespace AtMostTwo

variable {α : Type}

/-- The fee transfers of the parts. -/
def toList : AtMostTwo α → List α
  | .zero => []
  | .one x => x.toList
  | .two none => []
  | .two (some (x, y)) => x :: y.toList

end AtMostTwo

namespace TransactionSnarkWork

def statement {F : Type} (t : TransactionSnarkWork F) : OneOrTwo (Statement F) := t.proofs.map (·.statement)

end TransactionSnarkWork

namespace Resources

structure ConstraintConstants where
  coinbaseAmount : Amount
  superchargedCoinbaseFactor : Nat
  accountCreationFee : Fee

def coinbaseAmount (superchargeCoinbase : Bool) (c : ConstraintConstants) : Exn (Option Amount) :=
  if superchargeCoinbase then Currency.scale c.coinbaseAmount c.superchargedCoinbaseFactor
  else .ok (some c.coinbaseAmount)

variable {F : Type}

/-- The fee transfer for a work whose prover is the receiver is kept here; it
is left out when the diff is applied. -/
def coinbaseFt (cw : TransactionSnarkWork F) : Option CoinbaseFeeTransfer :=
  if cw.fee > 0 then some ⟨cw.prover, cw.fee⟩ else none

abbrev Cheapest (F : Type) := Option (TransactionSnarkWork F) × Option (TransactionSnarkWork F)

def cheapestStep (acc : Cheapest F) (w : TransactionSnarkWork F) : Cheapest F :=
  match acc.1, acc.2 with
  | none, _ => (some w, none)
  | some x, none => if w.fee < x.fee then (some w, acc.1) else (acc.1, some w)
  | some x, some y =>
    if w.fee < x.fee then (some w, acc.1)
    else if w.fee < y.fee then (acc.1, some w)
    else acc

def cheapestTwoWork (works : List (TransactionSnarkWork F)) : Cheapest F := works.foldl cheapestStep (none, none)

section Choice

variable [DecidableEq F]

/-- `diff`: the works without those that have one of the statements. -/
def diff (ws : List (TransactionSnarkWork F)) (stmts : List (OneOrTwo (Statement F))) :
    List (TransactionSnarkWork F) :=
  ws.filter fun w => w.statement ∉ stmts

/-- The parts and the remaining works, given the coinbase amount and the
budget. -/
def chooseWork (isTwo : Bool) (works : List (TransactionSnarkWork F)) (coinbaseAmount budget : Amount) :
    Option (AtMostTwo CoinbaseFeeTransfer × List (TransactionSnarkWork F)) :=
  let mins := cheapestTwoWork works
  if isTwo then
    match mins.1, mins.2 with
    | none, _ => none
    | some w, none =>
      if w.fee ≤ budget then
        some (.two ((coinbaseFt w).map fun ft => (ft, none)), diff works [w.statement])
      else some (.two none, works)
    | some w1, some w2 =>
      (Currency.add w1.fee w2.fee).map fun sum =>
        if sum ≤ budget then
          (.two ((coinbaseFt w1).map fun ft => (ft, coinbaseFt w2)), diff works [w1.statement, w2.statement])
        else if w1.fee ≤ coinbaseAmount then
          (.two ((coinbaseFt w1).map fun ft => (ft, none)), diff works [w1.statement])
        else (.two none, works)
  else
    mins.1.map fun w =>
      if w.fee ≤ budget then (.one (coinbaseFt w), diff works [w.statement]) else (.one none, works)

/-- The account creation fee of a new receiver is deducted from its reward. -/
def coinbaseBudget (c : ConstraintConstants) (isCoinbaseReceiverNew : Bool) (coinbaseAmount : Amount) :
    Option Amount :=
  if isCoinbaseReceiverNew then Currency.sub coinbaseAmount c.accountCreationFee else some coinbaseAmount

def coinbaseWork (c : ConstraintConstants) (isTwo : Bool) (works : List (TransactionSnarkWork F))
    (isCoinbaseReceiverNew superchargeCoinbase : Bool) :
    Exn (Option (AtMostTwo CoinbaseFeeTransfer × List (TransactionSnarkWork F))) :=
  (coinbaseAmount superchargeCoinbase c).andThen fun amount =>
    .ok (amount.bind fun amount =>
      (coinbaseBudget c isCoinbaseReceiverNew amount).bind fun budget => chooseWork isTwo works amount budget)

end Choice

/-! ## The two cheapest works -/

/-- What the two cheapest of the works seen so far are. -/
inductive IsCheapest : List (TransactionSnarkWork F) → Cheapest F → Prop
  | nil : IsCheapest [] (none, none)
  | one (w) : IsCheapest [w] (some w, none)
  | two {seen x y} (others) : seen.Perm (x :: y :: others) → x.fee ≤ y.fee → (∀ o ∈ others, y.fee ≤ o.fee) →
    IsCheapest seen (some x, some y)

theorem IsCheapest.step {seen : List (TransactionSnarkWork F)} {acc : Cheapest F} (h : IsCheapest seen acc)
    (w : TransactionSnarkWork F) : IsCheapest (seen ++ [w]) (cheapestStep acc w) := by
  cases h with
  | nil => exact .one w
  | one x =>
    rw [cheapestStep]
    dsimp only
    split
    next hlt => exact .two [] List.perm_append_comm (le_of_lt hlt) (by simp)
    next hge => exact .two [] (.refl _) (not_lt.1 hge) (by simp)
  | @two _ x y others hperm hxy hothers =>
    have hperm' : (seen ++ [w]).Perm (w :: x :: y :: others) :=
      List.perm_append_comm.trans (hperm.cons w)
    rw [cheapestStep]
    dsimp only
    split
    next hlt =>
      refine .two _ hperm' (le_of_lt hlt) fun o ho => ?_
      rcases List.mem_cons.1 ho with rfl | ho
      · exact hxy
      · exact hxy.trans (hothers o ho)
    next hge =>
      split
      next hlt =>
        refine .two _ (hperm'.trans (.swap _ _ _)) (not_lt.1 hge) fun o ho => ?_
        rcases List.mem_cons.1 ho with rfl | ho
        · exact le_of_lt hlt
        · exact (le_of_lt hlt).trans (hothers o ho)
      next hge' =>
        refine .two (w :: others) ?_ hxy fun o ho => ?_
        · exact hperm'.trans ((List.Perm.swap _ _ _).trans ((List.Perm.swap _ _ _).cons x))
        · rcases List.mem_cons.1 ho with rfl | ho
          · exact not_lt.1 hge'
          · exact hothers o ho

theorem IsCheapest.foldl {works : List (TransactionSnarkWork F)} : ∀ {seen : List (TransactionSnarkWork F)}
    {acc : Cheapest F}, IsCheapest seen acc → IsCheapest (seen ++ works) (works.foldl cheapestStep acc) := by
  induction works with
  | nil =>
    intro seen acc h
    rwa [List.append_nil]
  | cons w works ih =>
    intro seen acc h
    have := ih (h.step w)
    rwa [List.append_assoc] at this

theorem isCheapest_cheapestTwoWork (works : List (TransactionSnarkWork F)) :
    IsCheapest works (cheapestTwoWork works) := IsCheapest.nil.foldl

/-! ## The works taken and the works paid -/

def transfer (w : TransactionSnarkWork F) : CoinbaseFeeTransfer := ⟨w.prover, w.fee⟩

/-- The works whose statements are removed from the list, given the two
cheapest. -/
def takenOf (isTwo : Bool) (amount budget : Amount) : Cheapest F → List (TransactionSnarkWork F)
  | (none, _) => []
  | (some w, none) => if w.fee ≤ budget then [w] else []
  | (some w1, some w2) =>
    if isTwo then
      if w1.fee.val + w2.fee.val ≤ budget.val then [w1, w2] else if w1.fee ≤ amount then [w1] else []
    else if w1.fee ≤ budget then [w1] else []

def taken (isTwo : Bool) (works : List (TransactionSnarkWork F)) (amount budget : Amount) :
    List (TransactionSnarkWork F) :=
  takenOf isTwo amount budget (cheapestTwoWork works)

/-- The works that get a fee transfer: none if the cheapest one is free. -/
def paid : List (TransactionSnarkWork F) → List (TransactionSnarkWork F)
  | [] => []
  | w :: ws => if w.fee = 0 then [] else w :: ws

theorem coinbaseFt_eq (w : TransactionSnarkWork F) :
    coinbaseFt w = if w.fee = 0 then none else some (transfer w) := by
  rw [coinbaseFt]
  by_cases h : w.fee = 0
  · rw [if_pos h, h, if_neg (by decide)]
  · rw [if_neg h, if_pos (Fin.pos_iff_ne_zero.2 h), transfer]

theorem coinbaseFt_toList (w : TransactionSnarkWork F) :
    (coinbaseFt w).toList = (paid [w]).map transfer := by
  rw [coinbaseFt_eq, paid]
  split <;> rfl

theorem two_one_toList (w : TransactionSnarkWork F) :
    (AtMostTwo.two ((coinbaseFt w).map fun ft => (ft, none))).toList = (paid [w]).map transfer := by
  rw [coinbaseFt_eq, paid]
  split <;> rfl

theorem two_two_toList {w1 w2 : TransactionSnarkWork F} (hle : w1.fee ≤ w2.fee) :
    (AtMostTwo.two ((coinbaseFt w1).map fun ft => (ft, coinbaseFt w2))).toList =
      (paid [w1, w2]).map transfer := by
  rw [coinbaseFt_eq w1, paid]
  split
  next => rfl
  next h1 =>
    have h2 : w2.fee ≠ 0 := fun h2 => h1 (Fin.le_zero_iff.1 (h2 ▸ hle))
    rw [coinbaseFt_eq, if_neg h2]
    rfl

/-- The works taken are given works, in the order of their fees, and no other
given work is cheaper than one of them. -/
theorem taken_perm (isTwo : Bool) (works : List (TransactionSnarkWork F)) (amount budget : Amount) :
    ∃ others, works.Perm (taken isTwo works amount budget ++ others) ∧
      (∀ w ∈ taken isTwo works amount budget, ∀ o ∈ others, w.fee ≤ o.fee) ∧
      (taken isTwo works amount budget).Pairwise fun v w => v.fee ≤ w.fee := by
  have none_taken : ∃ others, works.Perm ([] ++ others) ∧
      (∀ w ∈ ([] : List (TransactionSnarkWork F)), ∀ o ∈ others, w.fee ≤ o.fee) ∧
      ([] : List (TransactionSnarkWork F)).Pairwise fun v w => v.fee ≤ w.fee :=
    ⟨works, .refl _, by simp, .nil⟩
  rw [taken]
  have h := isCheapest_cheapestTwoWork works
  generalize cheapestTwoWork works = mins at h
  cases h with
  | nil => exact none_taken
  | one w =>
    rw [takenOf]
    split
    · exact ⟨[], .refl _, by simp, by simp⟩
    · exact none_taken
  | @two _ w1 w2 others hperm hle hothers =>
    have one_taken : ∃ others, works.Perm ([w1] ++ others) ∧ (∀ w ∈ [w1], ∀ o ∈ others, w.fee ≤ o.fee) ∧
        [w1].Pairwise fun v w => v.fee ≤ w.fee := by
      refine ⟨w2 :: others, hperm, fun w hw o ho => ?_, by simp⟩
      rw [List.mem_singleton.1 hw]
      rcases List.mem_cons.1 ho with rfl | ho
      · exact hle
      · exact hle.trans (hothers o ho)
    rw [takenOf]
    split
    · split
      · refine ⟨others, hperm, fun w hw o ho => ?_, by simpa using hle⟩
        rcases List.mem_cons.1 hw with rfl | hw
        · exact hle.trans (hothers o ho)
        · rw [List.mem_singleton.1 hw]
          exact hothers o ho
      · split
        · exact one_taken
        · exact none_taken
    · split
      · exact one_taken
      · exact none_taken

/-- When the two cheapest works together do not fit the budget, the cheapest
one does, or the whole coinbase amount does not pay for it. -/
def CheapestFits (isTwo : Bool) (works : List (TransactionSnarkWork F)) (amount budget : Amount) : Prop :=
  ∀ w1 w2, isTwo = true → cheapestTwoWork works = (some w1, some w2) →
    budget.val < w1.fee.val + w2.fee.val → w1.fee ≤ amount → w1.fee ≤ budget

theorem affordable_iff {isTwo : Bool} {works : List (TransactionSnarkWork F)} {amount budget : Amount} :
    ((paid (taken isTwo works amount budget)).map (·.fee.val)).sum ≤ budget.val ↔
      CheapestFits isTwo works amount budget := by
  rw [taken, CheapestFits]
  generalize cheapestTwoWork works = mins
  have paid_one : ∀ w : TransactionSnarkWork F, ((paid [w]).map (·.fee.val)).sum = w.fee.val := by
    intro w
    rw [paid]
    split
    next h => rw [h]; rfl
    next => simp
  obtain ⟨x, y⟩ := mins
  cases x with
  | none => simp [takenOf, paid]
  | some w1 =>
    cases y with
    | none =>
      refine ⟨fun _ v w _ h => by simp at h, fun _ => ?_⟩
      rw [takenOf]
      split
      next h => rwa [paid_one]
      next => exact Nat.zero_le _
    | some w2 =>
      rw [takenOf]
      split
      next htwo =>
        split
        next hfits =>
          have hle : ((paid [w1, w2]).map (·.fee.val)).sum ≤ budget.val := by
            rw [paid]
            split
            · exact Nat.zero_le _
            · simpa using hfits
          refine ⟨fun _ v w _ h hlt _ => ?_, fun _ => hle⟩
          obtain ⟨rfl, rfl⟩ : w1 = v ∧ w2 = w := by simpa using h
          omega
        next hfits =>
          split
          next hone =>
            rw [paid_one]
            refine ⟨fun hle v w _ h _ _ => ?_, fun h => h w1 w2 htwo rfl (by omega) hone⟩
            obtain ⟨rfl, rfl⟩ : w1 = v ∧ w2 = w := by simpa using h
            exact hle
          next hone =>
            refine ⟨fun _ v w _ h _ hle => ?_, fun _ => Nat.zero_le _⟩
            obtain ⟨rfl, rfl⟩ : w1 = v ∧ w2 = w := by simpa using h
            exact absurd hle hone
      next htwo =>
        refine ⟨fun _ v w h => absurd h htwo, fun _ => ?_⟩
        split
        next h => rwa [paid_one]
        next => exact Nat.zero_le _

theorem paid_cases (ws : List (TransactionSnarkWork F)) : paid ws = [] ∨ paid ws = ws := by
  cases ws with
  | nil => exact .inl rfl
  | cons w ws =>
    rw [paid]
    split
    · exact .inl rfl
    · exact .inr rfl

theorem paid_positive : ∀ {ws : List (TransactionSnarkWork F)}, (ws.Pairwise fun v w => v.fee ≤ w.fee) →
    ∀ w ∈ paid ws, 0 < w.fee
  | [], _, w, hw => by cases hw
  | v :: ws, h, w, hw => by
    rw [paid] at hw
    split at hw
    next => cases hw
    next hv =>
      have hpos := Fin.pos_iff_ne_zero.2 hv
      rcases List.mem_cons.1 hw with rfl | hw
      · exact hpos
      · exact lt_of_lt_of_le hpos ((List.pairwise_cons.1 h).1 w hw)

section Choice

variable [DecidableEq F]

@[simp] theorem diff_nil (works : List (TransactionSnarkWork F)) : diff works [] = works := by
  simp [diff]

/-- What `coinbase_work` returns, in terms of the works taken and paid. -/
theorem chooseWork_eq {isTwo : Bool} {works rest : List (TransactionSnarkWork F)} {amount budget : Amount}
    {cb : AtMostTwo CoinbaseFeeTransfer} (h : chooseWork isTwo works amount budget = some (cb, rest)) :
    cb.toList = (paid (taken isTwo works amount budget)).map transfer ∧
      rest = diff works ((taken isTwo works amount budget).map (·.statement)) := by
  rw [chooseWork] at h
  rw [taken]
  have hc := isCheapest_cheapestTwoWork works
  generalize cheapestTwoWork works = mins at h hc
  have nothing : (([] : List CoinbaseFeeTransfer) = (paid ([] : List (TransactionSnarkWork F))).map transfer) ∧
      works = diff works (([] : List (TransactionSnarkWork F)).map (·.statement)) := ⟨rfl, (diff_nil _).symm⟩
  cases hc with
  | nil => split at h <;> cases h
  | one w =>
    rw [takenOf]
    split at h
    · dsimp only at h
      split at h
      next hle =>
        cases h
        rw [if_pos hle]
        exact ⟨two_one_toList w, rfl⟩
      next hgt =>
        cases h
        rw [if_neg hgt]
        exact nothing
    · have h := Option.some.inj h
      dsimp only at h
      split at h
      next hle =>
        cases h
        rw [if_pos hle]
        exact ⟨coinbaseFt_toList w, rfl⟩
      next hgt =>
        cases h
        rw [if_neg hgt]
        exact nothing
  | @two _ w1 w2 others hperm hle hothers =>
    rw [takenOf]
    split at h
    next htwo =>
      rw [if_pos htwo]
      obtain ⟨sum, hsum, h⟩ := Option.map_eq_some_iff.1 h
      have hval := Currency.add_eq_some.1 hsum
      split at h
      next hfits =>
        cases h
        rw [if_pos (by rw [← hval]; exact hfits)]
        exact ⟨two_two_toList hle, rfl⟩
      next hfits =>
        rw [if_neg (by rw [← hval]; exact hfits)]
        split at h
        next hone =>
          cases h
          rw [if_pos hone]
          exact ⟨two_one_toList w1, rfl⟩
        next hone =>
          cases h
          rw [if_neg hone]
          exact nothing
    next htwo =>
      rw [if_neg htwo]
      have h := Option.some.inj h
      dsimp only at h
      split at h
      next hone =>
        cases h
        rw [if_pos hone]
        exact ⟨coinbaseFt_toList w1, rfl⟩
      next hone =>
        cases h
        rw [if_neg hone]
        exact nothing

/-! ## The claim -/

/-- The coinbase pays for the works `ws`: its fee transfers are their positive
fees, which it can afford; they are given works, and none of the others is
cheaper; and what remains are the given works without them and without the
free ones. -/
structure PaysFor (budget : Amount) (works rest : List (TransactionSnarkWork F)) (cb : AtMostTwo CoinbaseFeeTransfer)
    (ws : List (TransactionSnarkWork F)) : Prop where
  transfers : cb.toList = ws.map transfer
  positive : ∀ w ∈ ws, 0 < w.fee
  affordable : (cb.toList.map (·.fee.val)).sum ≤ budget.val
  minimal : ∃ others, works.Perm (ws ++ others) ∧ ∀ w ∈ ws, ∀ o ∈ others, w.fee ≤ o.fee
  remaining : works.Perm (ws ++ (rest ++ works.filter fun w => w.fee = 0))

/-- The works with the statement of a work that is taken are the paid ones and
the free ones. -/
structure NoneShared (works ws : List (TransactionSnarkWork F)) : Prop where
  positive : (works.filter fun w => 0 < w.fee ∧ w.statement ∈ ws.map (·.statement)).length = (paid ws).length
  free : ∀ w ∈ works, w.fee = 0 → w.statement ∈ ws.map (·.statement)

/-- Every work with a fee and the statement of a work that is taken is paid. -/
def NoneLost (works ts : List (TransactionSnarkWork F)) : Prop :=
  (works.filter fun w => 0 < w.fee ∧ w.statement ∈ ts.map (·.statement)).length = (paid ts).length

instance (works ts : List (TransactionSnarkWork F)) : Decidable (NoneLost works ts) :=
  inferInstanceAs (Decidable (_ = _))

def ofOthers (receiverPk : PublicKey) (works : List (TransactionSnarkWork F)) : List (TransactionSnarkWork F) :=
  works.filter fun w => receiverPk ≠ w.prover

/-- The same for the works of the provers other than the receiver. -/
def NoneLostOthers (receiverPk : PublicKey) (works ts : List (TransactionSnarkWork F)) : Prop :=
  (ofOthers receiverPk (works.filter fun w => 0 < w.fee ∧ w.statement ∈ ts.map (·.statement))).length =
    (ofOthers receiverPk (paid ts)).length

instance (receiverPk : PublicKey) (works ts : List (TransactionSnarkWork F)) :
    Decidable (NoneLostOthers receiverPk works ts) :=
  inferInstanceAs (Decidable (_ = _))

/-- The paid works are given works with a statement that is taken. -/
theorem paid_subperm (isTwo : Bool) (works : List (TransactionSnarkWork F)) (amount budget : Amount) :
    (paid (taken isTwo works amount budget)).Subperm (works.filter fun w => 0 < w.fee ∧
      w.statement ∈ (taken isTwo works amount budget).map (·.statement)) := by
  obtain ⟨others, hperm, -, hsorted⟩ := taken_perm isTwo works amount budget
  have hpos := paid_positive hsorted
  generalize taken isTwo works amount budget = ws at hperm hpos
  rcases paid_cases ws with hnil | hall
  · rw [hnil]
    exact List.nil_subperm
  · rw [hall] at hpos ⊢
    have hws : ws.filter (fun w => 0 < w.fee ∧ w.statement ∈ ws.map (·.statement)) = ws := by
      refine List.filter_eq_self.2 fun w hw => ?_
      rw [decide_eq_true_iff]
      exact ⟨hpos w hw, List.mem_map_of_mem hw⟩
    have hsub := (List.sublist_append_left ws others).filter
      fun w => decide (0 < w.fee ∧ w.statement ∈ ws.map (·.statement))
    rw [hws] at hsub
    exact hsub.subperm.trans (hperm.filter _).symm.subperm

/-- The works with a positive fee, by whether their statement is taken. -/
theorem countP_positive (works : List (TransactionSnarkWork F)) (stmts : List (OneOrTwo (Statement F))) :
    works.countP (fun w => 0 < w.fee) =
      (works.filter fun w => 0 < w.fee ∧ w.statement ∈ stmts).length +
        (diff works stmts).countP fun w => 0 < w.fee := by
  rw [List.countP_eq_countP_filter_add works (fun w => decide (0 < w.fee)) fun w => decide (w.statement ∈ stmts),
    List.countP_filter, ← List.countP_eq_length_filter, diff]
  congr 1
  · exact List.countP_congr fun w _ => by simp
  · simp only [decide_not]

theorem chooseWork_pays_iff {isTwo : Bool} {works rest : List (TransactionSnarkWork F)} {amount budget : Amount}
    {cb : AtMostTwo CoinbaseFeeTransfer} (h : chooseWork isTwo works amount budget = some (cb, rest)) :
    (∃ ws, PaysFor budget works rest cb ws) ↔
      CheapestFits isTwo works amount budget ∧ NoneShared works (taken isTwo works amount budget) := by
  obtain ⟨hcb, rfl⟩ := chooseWork_eq h
  obtain ⟨others, hperm, hmin, hsorted⟩ := taken_perm isTwo works amount budget
  have hsub := paid_subperm isTwo works amount budget
  rw [← affordable_iff]
  generalize taken isTwo works amount budget = ts at hcb hperm hmin hsorted hsub
  have hfees : cb.toList.map (·.fee.val) = (paid ts).map (·.fee.val) := by
    rw [hcb, List.map_map]
    rfl
  constructor
  · intro h
    obtain ⟨ws, hws⟩ := h
    have hlength : ws.length = (paid ts).length := by
      have := congrArg List.length (hws.transfers.symm.trans hcb)
      simpa using this
    -- Nothing that remains is free, since the free works are counted apart.
    have hfree : ∀ w ∈ diff works (ts.map (·.statement)), w.fee ≠ 0 := by
      have hcount := hws.remaining.countP_eq fun w => decide (w.fee = 0)
      have hself : (works.filter fun w => w.fee = 0).countP (fun w => decide (w.fee = 0)) =
          works.countP fun w => decide (w.fee = 0) := by
        rw [List.countP_filter]
        exact List.countP_congr fun w _ => by simp
      rw [List.countP_append, List.countP_append, hself] at hcount
      have hzero : (diff works (ts.map (·.statement))).countP (fun w => decide (w.fee = 0)) = 0 := by omega
      intro w hw hfee
      exact List.countP_eq_zero.1 hzero w hw (decide_eq_true hfee)
    refine ⟨hfees ▸ hws.affordable, ?_, fun w hw hzero => ?_⟩
    · have hcount := hws.remaining.countP_eq fun w => decide (0 < w.fee)
      have hall : ws.countP (fun w => decide (0 < w.fee)) = ws.length :=
        List.countP_eq_length.2 fun w hw => decide_eq_true (hws.positive w hw)
      have hnone : (works.filter fun w => w.fee = 0).countP (fun w => decide (0 < w.fee)) = 0 := by
        refine List.countP_eq_zero.2 fun w hw => ?_
        have := (List.mem_filter.1 hw).2
        simp_all
      rw [countP_positive works (ts.map (·.statement)), List.countP_append, List.countP_append, hall, hnone] at hcount
      omega
    · by_contra hshared
      exact hfree w (List.mem_filter.2 ⟨hw, decide_eq_true hshared⟩) hzero
  · intro h
    obtain ⟨hafford, hnone⟩ := h
    refine ⟨paid ts, hcb, paid_positive hsorted, hfees ▸ hafford, ?_, ?_⟩
    · rcases paid_cases ts with hnil | hall
      · rw [hnil]
        exact ⟨works, .refl _, by simp⟩
      · rw [hall]
        exact ⟨others, hperm, hmin⟩
    · have hpaid := hsub.perm_of_length_le hnone.positive.le
      have htaken : (works.filter fun w => w.statement ∈ ts.map (·.statement)).Perm
          (paid ts ++ works.filter fun w => w.fee = 0) := by
        refine (List.filter_append_perm (fun w => decide (0 < w.fee)) _).symm.trans ?_
        rw [List.filter_filter, List.filter_filter]
        refine List.Perm.append ?_ (.of_eq (List.filter_congr fun w hw => ?_))
        · refine .trans (.of_eq (List.filter_congr fun w _ => ?_)) hpaid.symm
          simp
        · by_cases hzero : w.fee = 0
          · simpa [hzero] using hnone.free w hw hzero
          · simp [hzero, Fin.pos_iff_ne_zero.2 hzero]
      have hsplit := (List.filter_append_perm (fun w => decide (w.statement ∈ ts.map (·.statement))) works).symm
      have hdiff : (works.filter fun w => !decide (w.statement ∈ ts.map (·.statement))) =
          diff works (ts.map (·.statement)) := by
        rw [diff]
        simp only [decide_not]
      rw [hdiff] at hsplit
      refine hsplit.trans ((htaken.append_right _).trans ?_)
      rw [List.append_assoc]
      exact List.perm_append_comm.append_left _

/-- **What the coinbase pays for, exactly.** Whenever `coinbase_work` returns
parts and remaining works, the parts pay for the cheapest works within the
budget, and the remaining works are the others that are not free, if and only
if the cheapest of two works that do not fit together is within the budget,
and the works that share a statement with one that is taken are the paid and
the free ones. -/
theorem coinbaseWork_pays_iff {c : ConstraintConstants} {isTwo isCoinbaseReceiverNew superchargeCoinbase : Bool}
    {works rest : List (TransactionSnarkWork F)} {amount budget : Amount} {cb : AtMostTwo CoinbaseFeeTransfer}
    (hamount : coinbaseAmount superchargeCoinbase c = .ok (some amount))
    (hbudget : coinbaseBudget c isCoinbaseReceiverNew amount = some budget)
    (h : coinbaseWork c isTwo works isCoinbaseReceiverNew superchargeCoinbase = .ok (some (cb, rest))) :
    (∃ ws, PaysFor budget works rest cb ws) ↔
      CheapestFits isTwo works amount budget ∧ NoneShared works (taken isTwo works amount budget) := by
  rw [coinbaseWork, hamount, Exn.andThen_ok, Except.ok.injEq, Option.bind_some, hbudget, Option.bind_some] at h
  exact chooseWork_pays_iff h

end Choice

namespace Sample

/-- The statement of a ledger that no transaction changes. -/
def statement (ledger : Nat) : Statement Nat where
  source := ledger
  target := ledger
  supplyIncrease := 0
  pendingCoinbaseStackState := ⟨⟨0, 0, 0⟩, ⟨0, 0, 0⟩⟩
  feeExcess := .empty
  nextAvailableTokenBefore := 2
  nextAvailableTokenAfter := 2

/-- A work on one statement, by the prover with that number. -/
def work (ledger prover : Nat) (fee : Fee) : TransactionSnarkWork Nat :=
  ⟨fee, .one ⟨statement ledger, 0, 0⟩, ⟨prover, false⟩⟩

/-- A coinbase of 20, of which a new receiver gets 10. -/
def constants : ConstraintConstants := ⟨20, 2, 10⟩

/-- Two works of which a coinbase of 20 affords the first. -/
def works : List (TransactionSnarkWork Nat) := [work 1 1 15, work 2 2 16]

/-- A free work, and one with a fee. -/
def freeAndPaid : List (TransactionSnarkWork Nat) := [work 1 1 0, work 2 2 5]

end Sample

theorem coinbaseWork_pays_iff_sample :
    ∃ ws, PaysFor 20 Sample.works [Sample.work 2 2 16] (.one (some ⟨⟨1, false⟩, 15⟩)) ws :=
  (@coinbaseWork_pays_iff Nat _ Sample.constants false false false _ _ 20 20 _ rfl rfl rfl).2
    ⟨fun _ _ h => absurd h (by decide), by decide, by decide⟩

/-- A new receiver's coinbase of two parts pays 15 from a budget of 10; and a
work with a fee is neither paid nor kept beside a free one. -/
theorem coinbaseWork_overpays :
    (coinbaseWork Sample.constants true Sample.works true false =
        .ok (some (.two (some (⟨⟨1, false⟩, 15⟩, none)), [Sample.work 2 2 16])) ∧
      ¬ ∃ ws, PaysFor 10 Sample.works [Sample.work 2 2 16] (.two (some (⟨⟨1, false⟩, 15⟩, none))) ws) ∧
    coinbaseWork Sample.constants true Sample.freeAndPaid false false = .ok (some (.two none, [])) ∧
      ¬ ∃ ws, PaysFor 20 Sample.freeAndPaid [] (.two none) ws := by
  refine ⟨⟨rfl, ?_⟩, rfl, ?_⟩
  · intro h
    obtain ⟨ws, hws⟩ := h
    exact absurd hws.affordable (by decide)
  · intro h
    obtain ⟨ws, hws⟩ := h
    have hnil : ws = [] := List.map_eq_nil_iff.1 hws.transfers.symm
    rw [hnil] at hws
    exact absurd hws.remaining.length_eq (by decide)

end Resources

end Mina.StagedLedger
